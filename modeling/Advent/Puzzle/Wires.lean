/-
Crossings of two wires.

Two wires start at one place.  Of the positions that both step on, one answer is the
least distance from the start, the other the least number of steps along both wires
together.  For the first wire only its first visit to a position counts; a later one
takes more steps.
-/
import Advent.Grid.Path
import Std.Data.HashMap

namespace Advent.Puzzle.Wires

open Advent.Grid

/-- The number of the first step on each position of a walk, counted from one. -/
def firstVisits (walk : List Coord) : Std.HashMap Coord Nat :=
  (walk.zipIdx 1).foldl (fun visits (c, step) => visits.insertIfNew c step) ∅

/-- The visits of the second wire to a position of the first, in the order of the
second, each with the steps along both. -/
def crossings (a b : Path) : List (Coord × Nat) :=
  let visits := firstVisits a.walk
  (b.walk.zipIdx 1).filterMap fun (c, step) => visits[c]?.map fun first => (c, first + step)

/-- The least distance and the least number of steps of a crossing. -/
def solve (a b : Path) : Except Fault (Nat × Nat) :=
  let found := crossings a b
  match (found.map fun (c, _) => c.norm).min?, (found.map Prod.snd).min? with
  | some distance, some steps => .ok (distance, steps)
  | _, _ => Fault.raise .noCrossing

/-- The answer for the first two lines of a file. -/
def solveLines : List String → Except Fault (Nat × Nat)
  | a :: b :: _ => do
    let a ← Path.parse a
    let b ← Path.parse b
    solve a b
  | lines => Fault.raise (.missingWire lines.length)

end Advent.Puzzle.Wires
