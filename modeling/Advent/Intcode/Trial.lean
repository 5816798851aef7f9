/-
Activities that run machines.

A puzzle may run many machines one after another.  A `Trial` is what becomes of such
an activity: the stops seen on the way, in order, and then a value or the fault that
ended it; or `none`, when a run was not given enough instructions.
-/
import Advent.Intcode.Run

namespace Advent.Intcode

/-- The stops seen during an activity, and what came of it. -/
structure Report (α : Type) where
  events : List Event
  result : Except Fault α

/-- What becomes of an activity that runs machines. -/
def Trial (α : Type) : Type := Option (Report α)

namespace Trial

variable {α β : Type}

/-- An activity without a run. -/
def ofExcept (result : Except Fault α) : Trial α := some ⟨[], result⟩

/-- One activity and then another that depends on its value. -/
def bind (t : Trial α) (f : α → Trial β) : Trial β :=
  match t with
  | none => none
  | some ⟨events, .error fault⟩ => some ⟨events, .error fault⟩
  | some ⟨events, .ok a⟩ =>
    match f a with
    | none => none
    | some ⟨later, result⟩ => some ⟨events ++ later, result⟩

instance : Monad Trial where
  pure a := ofExcept (.ok a)
  bind := bind

/-- A value, or the end of the activity. -/
instance : MonadLift (Except Fault) Trial := ⟨ofExcept⟩

end Trial

end Advent.Intcode
