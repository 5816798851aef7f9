/-
The boost program.

It is run in a mode, its only input, and puts out a keycode.  Anything it puts out
before the keycode names an instruction that does not work.
-/
import Advent.Intcode.Trial

namespace Advent.Puzzle.Boost

open Advent.Intcode

/-- The keycode among some outputs. -/
def keycode (outputs : List Int) : Except Fault Int :=
  match outputs with
  | [] => Fault.raise .noOutput
  | [code] => .ok code
  | _ => Fault.raise (.malfunction outputs.dropLast)

/-- The keycode that a copy of a machine puts out in a mode. -/
def boost (steps : Nat) (m : Machine) (mode : Int) : Trial Int :=
  match m.copy.runWithInputs steps [mode] with
  | none => none
  | some t =>
    some ⟨t.events,
      match t.result with
      | .ok _ => keycode t.outputs
      | .error fault => .error fault⟩

/-- The keycodes in two modes. -/
def solve (steps : Nat) (m : Machine) (first second : Int) : Trial (Int × Int) := do
  let a ← boost steps m first
  let b ← boost steps m second
  return (a, b)

end Advent.Puzzle.Boost
