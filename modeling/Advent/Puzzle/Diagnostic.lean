/-
Diagnostic programs.

A diagnostic program is given one input value, the number of the system under test.
Its last output is the answer; what it puts out before that is not looked at.
-/
import Advent.Intcode.Trial

namespace Advent.Puzzle.Diagnostic

open Advent.Intcode

/-- Drive a machine to its halt through at most `legs` stops with at most `steps`
instructions before each.  `pending` is the input value until it is handed in, `last`
the latest output, and `past` holds the events so far, the latest first. -/
def listen (steps : Nat) : Nat → Machine → Option Int → Option Int → List Event → Trial Int
  | 0, _, _, _, _ => none
  | legs + 1, m, pending, last, past =>
    match m.drive steps with
    | none => none
    | some (.error fault, _) => some ⟨past.reverse, .error fault⟩
    | some (.ok stop, m') =>
      let past := m'.event stop :: past
      match stop, pending with
      | .output value, _ => listen steps legs m' pending (some value) past
      | .input _, some value => listen steps legs (m'.answer stop value) none last past
      | .input _, none => some ⟨past.reverse, Fault.raise .inputConsumed⟩
      | .halt, _ =>
        some ⟨past.reverse,
          match last with
          | some value => .ok value
          | none => Fault.raise .noOutput⟩

/-- The answer of a copy of a machine to one input value. -/
def compute (steps : Nat) (m : Machine) (value : Int) : Trial Int :=
  listen steps steps { m.copy with started := true } (some value) none []

/-- The answers for two systems. -/
def solve (steps : Nat) (m : Machine) (first second : Int) : Trial (Int × Int) := do
  let a ← compute steps m first
  let b ← compute steps m second
  return (a, b)

end Advent.Puzzle.Diagnostic
