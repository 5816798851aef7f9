/-
Nouns and verbs.

Two values, the noun and the verb, are put at addresses 1 and 2 of a program; what
the program leaves at address 0 is its result.  A search goes through all pairs of
numbers below 100, the noun changing slowest, for the first with a wanted result.
-/
import Advent.Intcode.Trial

namespace Advent.Puzzle.GravityAssist

open Advent.Intcode

/-- A copy of a machine with a noun and a verb put in. -/
def patch (m : Machine) (noun verb : Int) : Machine :=
  let m := m.copy
  { m with memory := (m.memory.put 1 noun).put 2 verb }

/-- The result for a noun and a verb.  The program has to halt without input or
output. -/
def result (steps : Nat) (m : Machine) (noun verb : Int) : Trial Int :=
  match (patch m noun verb).run steps with
  | none => none
  | some (.error fault, _) => some ⟨[], .error fault⟩
  | some (.ok stop, m') =>
    some ⟨[m'.event stop],
      match stop with
      | .halt => .ok (m'.memory.get 0)
      | .input _ | .output _ => Fault.raise .suspended⟩

/-- The nouns and the verbs to try. -/
def limit : Nat := 100

/-- The pairs to try, in order. -/
def pairs : List (Nat × Nat) :=
  (List.range limit).flatMap fun noun => (List.range limit).map fun verb => (noun, verb)

/-- The first of some pairs whose result is the target. -/
def searchAmong (steps : Nat) (m : Machine) (target : Int) : List (Nat × Nat) → Trial (Nat × Nat)
  | [] => Trial.ofExcept (Fault.raise (.noNounVerb target))
  | (noun, verb) :: rest => do
    let n ← result steps m noun verb
    if n = target then return (noun, verb) else searchAmong steps m target rest

/-- The first pair of all whose result is the target. -/
def search (steps : Nat) (m : Machine) (target : Int) : Trial (Nat × Nat) :=
  searchAmong steps m target pairs

/-- The result for a given noun and verb, and the pair that gives a target, written as
one number.  The search comes first. -/
def solve (steps : Nat) (m : Machine) (noun verb target : Int) : Trial (Int × Int) := do
  let (foundNoun, foundVerb) ← search steps m target
  let n ← result steps m noun verb
  return (n, 100 * foundNoun + foundVerb)

end Advent.Puzzle.GravityAssist
