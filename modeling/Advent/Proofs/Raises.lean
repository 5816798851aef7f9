/-
What a computation fails with.

`Raises` is a property that every fault of a computation has.  It is proved along the
computation: what a step raises, the whole raises, and nothing else.

Faults that are raised on purpose are reported to the user.  The exception is `unwritable`,
which stands for a fault whose message would have to name too long an integer, so whoever meets
it wants to know which integer that was.  `Fault.Plain` carries a property of this integer along.
For a machine the property is that some instruction of its run violates a check and the complaint
names the integer.
-/
import Advent.Intcode.Trial
import Advent.Proofs.Intcode.Failure

namespace Advent

variable {α β : Type} {P Q : Fault → Prop}

/-- Every fault of a result has a property. -/
def Raises (P : Fault → Prop) (r : Except Fault α) : Prop := ∀ fault, r = .error fault → P fault

/-- Where two steps succeed, both do. -/
theorem ok_of_bind {ε : Type} {r : Except ε α} {f : α → Except ε β} {b : β}
    (h : r >>= f = .ok b) : ∃ a, r = .ok a ∧ f a = .ok b := by
  cases r with
  | error e => cases h
  | ok a => exact ⟨a, rfl, h⟩

namespace Raises

theorem ok (P : Fault → Prop) (a : α) : Raises P (.ok a) := nofun

theorem error {fault : Fault} (h : P fault) : Raises P (.error fault : Except Fault α) := by
  rintro _ ⟨⟩
  exact h

/-- What fails with a property fails with any that follows from it. -/
theorem mono {r : Except Fault α} (h : Raises P r) (hPQ : ∀ fault, P fault → Q fault) :
    Raises Q r :=
  fun fault hr => hPQ fault (h fault hr)

/-- A sequence fails with what its first step or its second fails with. -/
theorem bind {r : Except Fault α} {f : α → Except Fault β} (hr : Raises P r)
    (hf : ∀ a, r = .ok a → Raises P (f a)) : Raises P (r >>= f) := by
  cases r with
  | error fault => exact error (hr fault rfl)
  | ok a => exact hf a rfl

theorem map {r : Except Fault α} {f : α → β} (hr : Raises P r) : Raises P (r.map f) := by
  cases r with
  | error fault => exact error (hr fault rfl)
  | ok a => exact ok P (f a)

end Raises

/-! ### Activities

A puzzle that runs machines reports the events of the runs along with its result.  They do not
matter to what it fails with, so the lemmas are those above, once more.
-/

deriving instance DecidableEq for Intcode.Report

namespace Intcode.Trial

instance [DecidableEq α] : DecidableEq (Trial α) := inferInstanceAs (DecidableEq (Option (Report α)))

/-- Every fault that ends an activity has a property. -/
def Raises (P : Fault → Prop) (t : Trial α) : Prop :=
  ∀ events fault, t = some ⟨events, .error fault⟩ → P fault

namespace Raises

theorem report {events : List Event} {r : Except Fault α} (h : Advent.Raises P r) :
    Trial.Raises P (some ⟨events, r⟩) := by
  rintro _ fault ⟨⟩
  exact h fault rfl

theorem none (P : Fault → Prop) : Trial.Raises P (none : Trial α) := nofun

theorem pure (P : Fault → Prop) (a : α) : Trial.Raises P (pure a : Trial α) :=
  report (Advent.Raises.ok P a)

theorem mono {t : Trial α} (h : Trial.Raises P t) (hPQ : ∀ fault, P fault → Q fault) :
    Trial.Raises Q t :=
  fun events fault ht => hPQ fault (h events fault ht)

theorem bind {t : Trial α} {f : α → Trial β} (ht : Trial.Raises P t)
    (hf : ∀ events a, t = some ⟨events, .ok a⟩ → Trial.Raises P (f a)) :
    Trial.Raises P (t >>= f) := by
  intro events fault h
  change Trial.bind t f = _ at h
  unfold Trial.bind at h
  split at h
  · cases h
  · cases h
    exact ht _ _ rfl
  · split at h
    · cases h
    · cases h
      exact hf _ _ rfl _ _ ‹_›

end Raises

end Intcode.Trial

/-! ### Faults on purpose

A fault is raised by giving it out, unless the integers in its message cannot be written.  If it is
known that they can be, what is raised is the fault itself.
-/

/-- An integer with more digits than a numeral may have. -/
def Numeral.Overlong (n : Int) : Prop := maxDigits < (Nat.digits 10 n.natAbs).length

/-- The fault is reported to the user. -/
def Fault.Reported (f : Fault) : Prop := f.kind.isReported = true

/-- The fault is reported to the user, or stands in for one whose message would name an overlong
integer with this property. -/
def Fault.Plain (named : Int → Prop) (f : Fault) : Prop :=
  f.Reported ∨ f = .unwritable ∧ ∃ n, named n ∧ Numeral.Overlong n

variable {named named' : Int → Prop}

theorem Fault.Plain.mono {f : Fault} (h : f.Plain named) (hnamed : ∀ n, named n → named' n) :
    f.Plain named' := by
  rcases h with hreported | ⟨hf, n, hn, hlong⟩
  · exact Or.inl hreported
  · exact Or.inr ⟨hf, n, hnamed n hn, hlong⟩

theorem Raises.plain {r : Except Fault α} (h : Raises Fault.Reported r) :
    Raises (Fault.Plain named) r :=
  h.mono fun _ => Or.inl

namespace Intcode

namespace Machine

variable {m m' : Machine} {steps : Nat} {fault : Fault} {inputs : List Int}

/-- Run with these inputs, the machine comes to an instruction that violates a check, and the
complaint about the first one names the integer. -/
def ComplainsOf (m : Machine) (inputs : List Int) (n : Int) : Prop :=
  ∃ turns b c, Batch.Passes turns (Batch.start m inputs) b ∧ b.machine.firstViolated = some c ∧
    n ∈ (b.machine.complaint c).integers

theorem complaint_reported (m : Machine) (c : Check) : (m.complaint c).Reported := by
  cases c <;> rfl

/-- An instruction fails with its complaint, or for an integer that the complaint names. -/
theorem Fails.plain (h : m.Fails fault m')
    (hnamed : ∀ c, m.firstViolated = some c → ∀ n ∈ (m.complaint c).integers, named n) :
    fault.Plain named := by
  obtain ⟨c, hc, ⟨-, rfl⟩ | ⟨⟨n, hn, hlong⟩, rfl⟩, -⟩ := h
  · exact Or.inl (m.complaint_reported c)
  · exact Or.inr ⟨rfl, n, hnamed c hc n hn, hlong⟩

end Machine

end Intcode

end Advent
