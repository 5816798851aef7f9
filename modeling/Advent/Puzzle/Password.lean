/-
Password candidates.

A candidate is judged by its numeral, which is to have six characters that never
decrease and two equal neighbours.  The stricter rule asks in addition for a run of
equal characters of length exactly two.  A minus sign is a character like any other
and comes before all digits.
-/
import Advent.Fault

namespace Advent.Puzzle.Password

/-! ### Neighbours in a list -/

section Neighbours

variable {α : Type}

/-- No item is greater than the next. -/
def isSorted [LE α] [DecidableLE α] (items : List α) : Bool :=
  (items.zip items.tail).all fun (a, b) => a ≤ b

/-- Some item equals the next. -/
def hasRepetition [BEq α] (items : List α) : Bool :=
  (items.zip items.tail).any fun (a, b) => a == b

/-- Some maximal run of equal items has length two. -/
def hasPair [BEq α] (items : List α) : Bool :=
  (items.splitBy (· == ·)).any fun run => run.length == 2

end Neighbours

/-! ### Counting -/

/-- The length of a password. -/
def length : Nat := 6

/-- The weaker rule. -/
def isValid (password : List Char) : Bool :=
  password.length == length && isSorted password && hasRepetition password

/-- How many candidates pass the weaker rule, and how many both. -/
structure Counts where
  valid : Nat
  strict : Nat
  deriving DecidableEq, Repr

/-- Count one candidate. -/
def Counts.add (counts : Counts) (candidate : Int) : Except Fault Counts :=
  if !Numeral.fits candidate then .error .unwritable
  else
    let password := (Numeral.write candidate).toList
    if !isValid password then .ok counts
    else if hasPair password then .ok ⟨counts.valid + 1, counts.strict + 1⟩
    else .ok ⟨counts.valid + 1, counts.strict⟩

/-- Count candidates. -/
def count (candidates : List Int) : Except Fault Counts :=
  candidates.foldlM Counts.add ⟨0, 0⟩

/-- The integers of a range. -/
def candidates (first last : Int) : List Int :=
  (List.range (last + 1 - first).toNat).map fun (i : Nat) => first + i

/-- Count the passwords of a range that is given by the numerals of its ends. -/
def solve (first last : String) : Except Fault Counts :=
  match Numeral.read first, Numeral.read last with
  | .ok a, .ok b => count (candidates a b)
  | _, _ => Fault.raise (.badRange first last)

end Advent.Puzzle.Password
