/-
An instruction is decoded before it does anything.

`decode` carries out everything of an instruction except its effect: it fetches the
word, finds the operation and reads the parameters.  It changes nothing and looks at
nothing but the values in memory, the program counter and the relative base.  What is
left is to move the program counter past the cells that were read and to apply the one
effect; `exec_eq` says that this is how the machine carries out an instruction, and
every later argument about instructions starts from it.

`decode_ok_iff` says when decoding succeeds and what it gives, and `apply_ok_iff` when
the effect can be applied: only a jump can still be refused.
-/
import Advent.Proofs.Intcode.Parameters

namespace Advent.Intcode

/-- An effect depends on the parameters that its operation has. -/
theorem Operation.effect_congr {op : Operation} {f g : Nat → Int}
    (h : ∀ j, j < op.roles.length → f j = g j) : op.effect f = op.effect g := by
  cases op <;> simp_all [Operation.roles, Operation.effect]

theorem Word.ofInt_ok_iff (value : Int) (w : Word) :
    Word.ofInt value = .ok w ↔ 0 ≤ value ∧ w = ⟨value.toNat⟩ := by
  unfold Word.ofInt
  split
  · simp [Fault.raise]
    omega
  · simp [eq_comm]
    omega

namespace Machine

/-- The word at the program counter, as far as it is one. -/
def fetched (m : Machine) : Word := ⟨(m.memory.get m.pc).toNat⟩

/-- What parameter `j` of an operation at the program counter comes to. -/
def argument (m : Machine) (op : Operation) (j : Nat) : Int :=
  (m.advance (1 + j)).resolve (m.fetched.modeDigit j) (op.roles.getD j .input)

/-- The effect of the instruction at the program counter, or the fault in it, and how
many cells from the program counter on were read. -/
def decode (m : Machine) : Except Fault Effect × Nat :=
  match Word.ofInt (m.memory.get m.pc) with
  | .error fault => (.error fault, 1)
  | .ok word =>
    match Operation.ofCode? word.code with
    | none => (Fault.raise (.unknownCode word.code m.pc), 1)
    | some op =>
      let reading := (m.advance 1).params word 0 op.roles
      (reading.result.map fun values => op.effect fun i => values.getD i 0,
        reading.values.length + 1)

/-- **An instruction is its decoding followed by its effect.** -/
theorem exec_eq (m : Machine) :
    m.exec = match m.decode with
      | (.error fault, n) => (.error fault, m.advance n)
      | (.ok e, n) => (m.advance n).apply e := by
  unfold exec decode readWord
  cases hword : Word.ofInt (m.memory.get m.pc) with
  | error fault => rfl
  | ok word =>
      dsimp only
      cases hop : Operation.ofCode? word.code with
      | none => rfl
      | some op =>
          have hlen : ∀ k : Nat, (1 : Int) + k = ((k + 1 : Nat) : Int) := by omega
          simp only [readParams, advance_advance, hlen]
          cases hres : ((m.advance 1).params word 0 op.roles).result <;> rfl

/-! ### What no instruction changes -/

theorem apply_started (m : Machine) (e : Effect) : (m.apply e).2.started = m.started := by
  cases e with
  | jump target =>
      simp only [apply]
      cases m.jumpTarget target <;> rfl
  | _ => rfl

theorem exec_started (m : Machine) : m.exec.2.started = m.started := by
  rw [exec_eq]
  rcases m.decode with ⟨fault | e, n⟩
  · rfl
  · exact apply_started _ e

/-! ### When decoding succeeds -/

theorem effect_argument {m : Machine} {op : Operation} {vs : List Int}
    (h : ∀ (j : Nat) (hj : j < op.roles.length), vs[j]? =
      some ((m.advance (1 + j)).resolve (m.fetched.modeDigit j) op.roles[j])) :
    (op.effect fun i => vs.getD i 0) = op.effect (m.argument op) := by
  refine Operation.effect_congr fun j hj => ?_
  simp [List.getD_eq_getElem?_getD, h j hj, argument, hj]

/-- Decoding succeeds when the word is one, its code is known and every parameter is legible, and it
gives the effect of the operation on what the parameters come to. -/
theorem decode_ok_iff (m : Machine) (e : Effect) (n : Nat) :
    m.decode = (.ok e, n) ↔
      0 ≤ m.memory.get m.pc ∧ ∃ op, Operation.ofCode? m.fetched.code = some op ∧
        (∀ (j : Nat) (hj : j < op.roles.length),
          (m.advance (1 + j)).Legible (m.fetched.modeDigit j) op.roles[j]) ∧
        e = op.effect (m.argument op) ∧ n = op.roles.length + 1 := by
  refine ⟨?_, ?_⟩
  · intro h
    unfold decode at h
    -- each of the three stages succeeded: the word, its code and its parameters
    cases hword : Word.ofInt (m.memory.get m.pc) with
    | error fault => simp [hword] at h
    | ok word =>
        obtain ⟨hnonneg, rfl⟩ := (Word.ofInt_ok_iff _ _).mp hword
        cases hop : Operation.ofCode? m.fetched.code with
        | none =>
            rw [fetched] at hop
            simp [hword, hop, Fault.raise] at h
        | some op =>
            have hop' := hop
            rw [fetched] at hop'
            simp only [hword, hop'] at h
            cases hres : ((m.advance 1).params m.fetched 0 op.roles).result with
            | error fault =>
                rw [fetched] at hres
                simp [hres, Except.map] at h
            | ok vs =>
                obtain ⟨hlen, hall⟩ := (params_ok_iff m.fetched op.roles (m.advance 1) 0 vs).mp hres
                have hvalues := params_length hres
                rw [fetched] at hres hvalues
                simp only [hres, hvalues, Except.map, Prod.mk.injEq, Except.ok.injEq] at h
                simp only [advance_advance, Nat.zero_add] at hall
                refine ⟨hnonneg, op, rfl, fun j hj => (hall j hj).1, ?_, by omega⟩
                rw [← h.1]
                exact effect_argument fun j hj => (hall j hj).2
  · intro hright
    obtain ⟨hnonneg, op, hop, hlegible, rfl, rfl⟩ := hright
    have hword := (Word.ofInt_ok_iff _ _).mpr ⟨hnonneg, (rfl : m.fetched = _)⟩
    have hres := (params_ok_iff m.fetched op.roles (m.advance 1) 0
      ((List.range op.roles.length).map (m.argument op))).mpr (by
        refine ⟨by simp, fun j hj => ?_⟩
        simp only [advance_advance, Nat.zero_add]
        exact ⟨hlegible j hj, by simp [hj, argument]⟩)
    have hvalues := params_length hres
    simp only [decode, hword, hop, hres, hvalues, Except.map, List.length_map, List.length_range]
    congr 2
    refine effect_argument fun j hj => ?_
    simp [hj, argument]

/-! ### When the effect can be applied

Storing, pausing, shifting the relative base and halting are always possible.  What is left is the
jump, which is refused below zero, and at or past the extent if the machine is bounded.
-/

/-- A jump to this address is not refused. -/
def Admits (m : Machine) (target : Int) : Prop :=
  0 ≤ target ∧ (m.bounded = true → target < m.memory.extent)

theorem jumpTarget_ok_iff (m : Machine) (target a : Int) :
    m.jumpTarget target = .ok a ↔ m.Admits target ∧ a = target := by
  unfold jumpTarget Admits address
  by_cases hneg : target < 0
  · rw [if_pos hneg]
    exact ⟨fun h => (by cases h), fun ⟨hadmits, _⟩ => (by omega)⟩
  · by_cases hout : m.bounded = true ∧ m.memory.extent ≤ target
    · simp only [hneg, hout, and_self, if_false, if_true, bind, Except.bind]
      refine ⟨fun h => (by cases h), fun ⟨hadmits, _⟩ => ?_⟩
      have := hadmits.2 trivial
      omega
    · simp only [hneg, hout, if_false, bind, Except.bind, pure, Except.pure, Except.ok.injEq]
      refine ⟨?_, ?_⟩
      · rintro rfl
        exact ⟨⟨by omega, fun hb => by simp [hb] at hout; omega⟩, rfl⟩
      · intro hright
        obtain ⟨-, rfl⟩ := hright
        rfl

theorem of_apply_jump_ok {m m' : Machine} {target : Int} {outcome : Option Stop}
    (h : m.apply (.jump target) = (.ok outcome, m')) :
    m.Admits target ∧ outcome = none ∧ m' = { m with pc := target } := by
  simp only [apply] at h
  cases ht : m.jumpTarget target with
  | error fault => simp [ht] at h
  | ok a =>
      obtain ⟨hadmits, rfl⟩ := (jumpTarget_ok_iff m target a).mp ht
      simp only [ht, Prod.mk.injEq, Except.ok.injEq] at h
      exact ⟨hadmits, h.1.symm, h.2.symm⟩

/-- Only a jump can be refused. -/
theorem apply_ok_iff (m : Machine) (e : Effect) :
    (∃ outcome m', m.apply e = (.ok outcome, m')) ↔ ∀ target, e = .jump target → m.Admits target := by
  cases e with
  | jump target =>
      simp only [apply, Effect.jump.injEq]
      cases h : m.jumpTarget target with
      | error fault =>
          refine ⟨fun ⟨_, _, hc⟩ => (by cases hc), fun hall => ?_⟩
          rw [(jumpTarget_ok_iff m target target).mpr ⟨hall target rfl, rfl⟩] at h
          cases h
      | ok a =>
          obtain ⟨hadmits, rfl⟩ := (jumpTarget_ok_iff m target a).mp h
          exact ⟨fun _ t ht => ht ▸ hadmits, fun _ => ⟨_, _, rfl⟩⟩
  | _ => simp [apply]

/-! ### Flags are not looked at

Decoding sees neither flag, so two machines that differ in them decode alike.  The
started flag is not looked at by effects either: it rides along.
-/

theorem params_flags (m : Machine) (bounded started : Bool) (w : Word) (roles : List Role) :
    ∀ (n : Int) (i : Nat), ({ m with bounded, started }.advance n).params w i roles =
      (m.advance n).params w i roles := by
  induction roles with
  | nil => intro n i; rfl
  | cons role roles ih =>
      intro n i
      have hparam : ({ m with bounded, started }.advance n).param w i role =
          (m.advance n).param w i role := rfl
      rw [params, params, hparam]
      simp only [advance_advance, ih]

theorem decode_flags (m : Machine) (bounded started : Bool) :
    { m with bounded, started }.decode = m.decode := by
  unfold decode
  simp only [params_flags]

/-- Carrying out an instruction takes the started flag along and does nothing else with it. -/
theorem exec_mark (m : Machine) (started : Bool) :
    { m with started }.exec = (m.exec.1, { m.exec.2 with started }) := by
  rw [exec_eq, exec_eq, decode_flags m m.bounded started]
  rcases m.decode with ⟨fault | e, n⟩
  · rfl
  · cases e with
    | jump target =>
        have htarget : ({ m with started }.advance n).jumpTarget target =
            (m.advance n).jumpTarget target := rfl
        simp only [apply, htarget]
        cases (m.advance n).jumpTarget target <;> rfl
    | _ => rfl

end Machine

end Advent.Intcode
