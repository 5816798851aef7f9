/-
What an instruction can fail with.

The faults of an instruction are those of its word, its code, its parameters and its
jump, or `unwritable` in the place of one of them.  So a fault of another kind always
has another origin: a caller who ran out of input, or one who drove a machine twice.
The proofs follow an instruction stage by stage, and `exec_fault_kind` puts the stages
together.
-/
import Advent.Proofs.Intcode.Decode

namespace Advent.Intcode.Machine

/-- The kinds of the faults of a decoding.  A `value` fault stands in for one whose
message would have to write out too long an integer. -/
def decodingKinds : List Kind :=
  [.invalidOpcode, .invalidMode, .immediateTarget, .negativeAddress, .value]

/-- The kinds of the faults of an instruction. -/
def faultKinds : List Kind := .jumpOutside :: decodingKinds

/-! ### Stage by stage

A fault that is raised keeps its kind, unless its message cannot be written.  That is then a value
fault, which is why the kinds of a decoding include that one.
-/

/-- A fault whose message cannot be written is reported as a value fault, any other as itself. -/
theorem reported_kind (f : Fault) : f.reported.kind = f.kind ∨ f.reported.kind = .value := by
  unfold Fault.reported
  split
  · exact Or.inl rfl
  · exact Or.inr rfl

theorem kind_of_raise {α : Type} {f fault : Fault} (hf : f.kind ∈ decodingKinds)
    (h : (Fault.raise f : Except Fault α) = .error fault) : fault.kind ∈ decodingKinds := by
  cases h
  rcases reported_kind f with hkind | hkind
  · rw [hkind]
    exact hf
  · rw [hkind]
    decide

theorem map_fault {α β : Type} {x : Except Fault α} {f : α → β} {fault : Fault}
    (h : x.map f = .error fault) : x = .error fault := by
  cases x with
  | error fault' => rw [← Except.error.inj h]
  | ok a => cases h

theorem address_fault_kind {a : Int} {fault : Fault} (h : address a = .error fault) :
    fault.kind ∈ decodingKinds := by
  unfold address at h
  split at h
  · exact kind_of_raise (by simp [Fault.kind, decodingKinds]) h
  · cases h

theorem param_fault_kind {m : Machine} {w : Word} {i : Nat} {role : Role} {fault : Fault}
    (hrole : role = .input ∨ role = .output) (h : m.param w i role = .error fault) :
    fault.kind ∈ decodingKinds := by
  unfold param at h
  cases hmode : w.mode i with
  | error fault' =>
      simp only [hmode, bind, Except.bind, Except.error.injEq] at h
      subst h
      unfold Word.mode at hmode
      split at hmode
      · cases hmode
      · exact kind_of_raise (by simp [Fault.kind, decodingKinds]) hmode
  | ok mode =>
      simp only [hmode, bind, Except.bind] at h
      rcases hrole with rfl | rfl
      · cases mode with
        | position => exact address_fault_kind (map_fault h)
        | immediate => cases h
        | relative => exact address_fault_kind (map_fault h)
      · cases mode with
        | position => exact address_fault_kind h
        | immediate => exact kind_of_raise (by simp [Fault.kind, decodingKinds]) h
        | relative => exact address_fault_kind h

/-- The first parameter that cannot be read settles the fault of them all. -/
theorem params_fault_kind {w : Word} {fault : Fault} (roles : List Role)
    (hroles : ∀ role ∈ roles, role = .input ∨ role = .output) :
    ∀ {m : Machine} {i : Nat}, (m.params w i roles).result = .error fault →
      fault.kind ∈ decodingKinds := by
  induction roles with
  | nil => intro m i h; cases h
  | cons role roles ih =>
      intro m i h
      rw [params_cons_result] at h
      cases hv : m.param w i role with
      | error fault' =>
          simp only [hv, bind, Except.bind, Except.error.injEq] at h
          exact h ▸ param_fault_kind (hroles role (by simp)) hv
      | ok v =>
          cases hr : ((m.advance 1).params w (i + 1) roles).result with
          | error fault' =>
              simp only [hv, hr, bind, Except.bind, Except.error.injEq] at h
              rw [h] at hr
              exact ih (fun r hmem => hroles r (by simp [hmem])) hr
          | ok rest => simp [hv, hr, bind, Except.bind, pure, Except.pure] at h

/-- Decoding fails with a kind of its own: of the word, of the code or of a parameter. -/
theorem decode_fault_kind {m : Machine} {fault : Fault} {n : Nat}
    (h : m.decode = (.error fault, n)) : fault.kind ∈ decodingKinds := by
  unfold decode at h
  cases hword : Word.ofInt (m.memory.get m.pc) with
  | error fault' =>
      simp only [hword, Prod.mk.injEq, Except.error.injEq] at h
      rw [← h.1]
      unfold Word.ofInt at hword
      split at hword
      · exact kind_of_raise (by simp [Fault.kind, decodingKinds]) hword
      · cases hword
  | ok word =>
      cases hop : Operation.ofCode? word.code with
      | none =>
          simp only [hword, hop, Prod.mk.injEq] at h
          exact kind_of_raise (by simp [Fault.kind, decodingKinds]) h.1
      | some op =>
          simp only [hword, hop, Prod.mk.injEq] at h
          cases hres : ((m.advance 1).params word 0 op.roles).result with
          | error fault' =>
              simp only [hres, Except.map, Except.error.injEq] at h
              refine h.1 ▸ params_fault_kind op.roles ?_ hres
              cases op <;> simp [Operation.roles]
          | ok vs => simp [hres, Except.map] at h

theorem jumpTarget_fault {m : Machine} {target : Int} {fault : Fault}
    (h : m.jumpTarget target = .error fault) :
    fault.kind ∈ decodingKinds ∨ m.bounded = true ∧ 0 ≤ target ∧ m.memory.extent ≤ target ∧
      fault = (Fault.jumpOutside target m.memory.extent).reported := by
  unfold jumpTarget at h
  cases haddress : address target with
  | error fault' =>
      simp only [haddress, bind, Except.bind, Except.error.injEq] at h
      exact Or.inl (h ▸ address_fault_kind haddress)
  | ok a =>
      have hnonneg : ¬ target < 0 ∧ target = a := by
        unfold address at haddress
        split at haddress
        · cases haddress
        · exact ⟨‹_›, Except.ok.inj haddress⟩
      obtain ⟨hnonneg, rfl⟩ := hnonneg
      simp only [haddress, bind, Except.bind] at h
      split at h
      · rename_i houtside
        exact Or.inr ⟨houtside.1, by omega, houtside.2, (Except.error.inj h).symm⟩
      · cases h

theorem apply_fault {m m' : Machine} {e : Effect} {fault : Fault}
    (h : m.apply e = (.error fault, m')) :
    fault.kind ∈ decodingKinds ∨ ∃ target, e = .jump target ∧ m.bounded = true ∧ 0 ≤ target ∧
      m.memory.extent ≤ target ∧ fault = (Fault.jumpOutside target m.memory.extent).reported := by
  cases e with
  | jump target =>
      simp only [apply] at h
      cases ht : m.jumpTarget target with
      | ok a => simp [ht] at h
      | error fault' =>
          simp only [ht, Prod.mk.injEq, Except.error.injEq] at h
          rcases h.1 ▸ jumpTarget_fault ht with hkind | houtside
          · exact Or.inl hkind
          · exact Or.inr ⟨target, rfl, houtside⟩
  | _ => simp [apply] at h

/-- **An instruction fails with a fault of its own kinds**, never for want of input or
because something was driven twice. -/
theorem exec_fault_kind {m m' : Machine} {fault : Fault} (h : m.exec = (.error fault, m')) :
    fault.kind ∈ faultKinds := by
  rw [exec_eq] at h
  rcases hd : m.decode with ⟨fault' | e, n⟩
  · simp only [hd, Prod.mk.injEq, Except.error.injEq] at h
    exact List.mem_cons_of_mem _ (h.1 ▸ decode_fault_kind hd)
  · simp only [hd] at h
    rcases apply_fault h with hkind | ⟨target, -, -, -, -, hfault⟩
    · exact List.mem_cons_of_mem _ hkind
    · rw [hfault]
      rcases reported_kind (.jumpOutside target (m.advance n).memory.extent) with hkind | hkind
      · rw [hkind]
        exact List.mem_cons_self
      · rw [hkind]
        decide

end Advent.Intcode.Machine
