/-
Running a machine.

A run is instruction after instruction until one of them stops the machine or fails.
A program need not end, so a run is given a number of instructions that it may carry
out, and answers `none` when they do not suffice; a larger allowance never changes an
answer once there is one.

`converse` drives a machine to its halt: it resumes the machine at every stop, hands
it the next input value when it wants one, and records the stops in order.
-/
import Advent.Intcode.Machine

namespace Advent.Intcode

/-- A stop and the program counter at which it happened. -/
structure Event where
  stop : Stop
  pc : Int
  deriving DecidableEq, Repr

/-- The value put out, if the event is an output. -/
def Event.output? (e : Event) : Option Int :=
  match e.stop with
  | .output value => some value
  | _ => none

namespace Machine

/-! ### From one stop to the next -/

/-- Carry out at most `steps` instructions, up to the first that stops or fails. -/
def drive : Nat → Machine → Option (Except Fault Stop × Machine)
  | 0, _ => none
  | steps + 1, m =>
    match m.exec with
    | (.error fault, m') => some (.error fault, m')
    | (.ok (some stop), m') => some (.ok stop, m')
    | (.ok none, m') => m'.drive steps

/-- Run a machine that has not started up to its first stop. -/
def run (steps : Nat) (m : Machine) : Option (Except Fault Stop × Machine) :=
  if m.started then some (Fault.raise .alreadyRun, m)
  else { m with started := true }.drive steps

/-- Answer a stop: where the machine wants a value it is written, and nothing happens
elsewhere.  The address of a stop is not checked again. -/
def answer (m : Machine) (stop : Stop) (value : Int) : Machine :=
  match stop with
  | .input destination => { m with memory := m.memory.put destination value }
  | .output _ | .halt => m

/-- The event of a stop of this machine. -/
def event (m : Machine) (stop : Stop) : Event := ⟨stop, m.pc⟩

end Machine

/-! ### From start to halt -/

/-- The stops of a machine that was driven until it halted or failed, and what came of
it. -/
structure Transcript where
  events : List Event
  result : Except Fault Unit
  machine : Machine

/-- The values put out, in order. -/
def Transcript.outputs (t : Transcript) : List Int := t.events.filterMap Event.output?

namespace Machine

/-- Drive a machine to its halt through at most `legs` stops with at most `steps`
instructions before each.  `pending` are the values still to be handed in, `supplied`
counts those that were, and `past` holds the events so far, the latest first. -/
def converse (steps : Nat) :
    Nat → Machine → List Int → Nat → List Event → Option Transcript
  | 0, _, _, _, _ => none
  | legs + 1, m, pending, supplied, past =>
    match m.drive steps with
    | none => none
    | some (.error fault, m') => some ⟨past.reverse, .error fault, m'⟩
    | some (.ok stop, m') =>
      let past := m'.event stop :: past
      match stop, pending with
      | .halt, _ => some ⟨past.reverse, .ok (), m'⟩
      | .output _, _ => m'.converse steps legs pending supplied past
      | .input _, [] => some ⟨past.reverse, Fault.raise (.inputExhausted supplied), m'⟩
      | .input _, value :: pending =>
        (m'.answer stop value).converse steps legs pending (supplied + 1) past

/-- Run a machine that has not started to its halt, with these input values. -/
def runWithInputs (steps : Nat) (m : Machine) (inputs : List Int) : Option Transcript :=
  if m.started then some ⟨[], Fault.raise .alreadyRun, m⟩
  else { m with started := true }.converse steps steps inputs 0 []

end Machine

end Advent.Intcode
