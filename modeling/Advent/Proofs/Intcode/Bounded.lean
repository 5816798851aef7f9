/-
A bound on jumps finds errors early.

A bounded machine rejects a jump to an address at or past the extent.  No cell is stored
there, so a machine without the bound that takes the jump fetches a zero, and no
operation has that code: it fails one instruction later, before it has read, written or
put out anything.  So the two machines go in step until the bound strikes, and the one
halts when the other does.

That no cell lies past the extent is an invariant of memory (`Memory.WF`).  It holds of
every memory that is built from cells and puts, and every turn keeps it.
-/
import Advent.Proofs.Intcode.Converse
import Advent.Proofs.Intcode.Memory

namespace Advent.Intcode

namespace Machine

/-- The machine without the bound on its jumps. -/
def unbounded (m : Machine) : Machine := { m with bounded := false }

/-- The instruction at the program counter is a jump to this address, and nothing but the
bound rejects it. -/
structure Rejects (m : Machine) (target : Int) : Prop where
  jump : m.decode.1 = .ok (.jump target)
  bounded : m.bounded = true
  nonneg : 0 ≤ target
  outside : m.memory.extent ≤ target

/-! ### One instruction -/

/-- A decoded jump is all there is to an instruction. -/
theorem exec_of_jump {m : Machine} {target : Int} (h : m.decode.1 = .ok (.jump target)) :
    m.exec = (m.advance m.decode.2).apply (.jump target) := by
  rw [exec_eq]
  rcases hd : m.decode with ⟨result, n⟩
  rw [hd] at h
  have hresult : result = .ok (.jump target) := h
  rw [hresult]

theorem decode_unbounded (m : Machine) : m.unbounded.decode = m.decode :=
  decode_flags m false m.started

theorem jumpTarget_unbounded {m : Machine} {target : Int}
    (h : ¬ (m.bounded = true ∧ 0 ≤ target ∧ m.memory.extent ≤ target)) :
    m.unbounded.jumpTarget target = m.jumpTarget target := by
  unfold jumpTarget address
  by_cases hneg : target < 0
  · simp [hneg, Fault.raise, bind, Except.bind]
  · have hbound : ¬ (m.bounded = true ∧ m.memory.extent ≤ target) := fun hb =>
      h ⟨hb.1, by omega, hb.2⟩
    simp [hneg, hbound, unbounded, bind, Except.bind]

/-- **The bound changes nothing** in an instruction that it does not reject. -/
theorem exec_unbounded {m : Machine} (h : ∀ target, ¬ m.Rejects target) :
    m.unbounded.exec = (m.exec.1, m.exec.2.unbounded) := by
  rw [exec_eq, exec_eq, decode_unbounded]
  rcases hd : m.decode with ⟨fault | e, n⟩
  · rfl
  · cases e with
    | jump target =>
        have htarget : (m.advance n).unbounded.jumpTarget target = (m.advance n).jumpTarget target :=
          jumpTarget_unbounded fun hr => h target ⟨by rw [hd], hr.1, hr.2.1, hr.2.2⟩
        have hcomm : m.unbounded.advance n = (m.advance n).unbounded := rfl
        simp only [apply, hcomm, htarget]
        cases (m.advance n).jumpTarget target <;> rfl
    | _ => rfl

theorem exec_of_rejects {m : Machine} {target : Int} (h : m.Rejects target) :
    m.exec.1 = .error (Fault.jumpOutside target m.memory.extent).reported := by
  have hneg : ¬ target < 0 := by have := h.nonneg; omega
  have hbounded : (m.advance m.decode.2).bounded = true := h.bounded
  have houtside : (m.advance m.decode.2).memory.extent ≤ target := h.outside
  rw [exec_of_jump h.jump]
  simp only [apply, jumpTarget, address, hneg, if_false, bind, Except.bind, hbounded, houtside,
    and_self, if_true]
  rfl

/-- Only rejected jumps are reported as jumps out of memory. -/
theorem rejects_of_kind {m m' : Machine} {fault : Fault} (h : m.exec = (.error fault, m'))
    (hkind : fault.kind = .jumpOutside) : ∃ target, m.Rejects target := by
  have hnot : fault.kind ∉ decodingKinds := by
    rw [hkind]
    decide
  rw [exec_eq] at h
  rcases hd : m.decode with ⟨fault' | e, n⟩
  · simp only [hd, Prod.mk.injEq, Except.error.injEq] at h
    exact absurd (h.1 ▸ decode_fault_kind hd) hnot
  · simp only [hd] at h
    rcases apply_fault h with hdecoding | ⟨target, rfl, hbounded, hnonneg, houtside, -⟩
    · exact absurd hdecoding hnot
    · exact ⟨target, by rw [hd], hbounded, hnonneg, houtside⟩

theorem exec_unbounded_of_rejects {m : Machine} {target : Int} (h : m.Rejects target) :
    m.unbounded.exec = (.ok none, { m.unbounded with pc := target }) := by
  have hjump : m.unbounded.decode.1 = .ok (.jump target) := by rw [decode_unbounded, h.jump]
  have hadmits : (m.unbounded.advance m.unbounded.decode.2).Admits target :=
    ⟨h.nonneg, fun hb => by cases hb⟩
  rw [exec_of_jump hjump, apply, (jumpTarget_ok_iff _ target target).mpr ⟨hadmits, rfl⟩]
  rfl

/-- Past the extent there is no instruction. -/
theorem exec_past_extent {m : Machine} (hm : m.memory.WF) (h : m.memory.extent ≤ m.pc) :
    m.exec = (.error (Fault.unknownCode 0 m.pc).reported, m.advance 1) := by
  have hword : Word.ofInt (m.memory.get m.pc) = .ok ⟨0⟩ := by
    rw [Memory.get_of_extent_le hm h]
    rfl
  rw [exec_eq]
  simp only [decode, hword]
  rfl

/-- An instruction writes through `put`, so no cell comes to lie past the extent. -/
theorem exec_wf {m : Machine} (hm : m.memory.WF) : m.exec.2.memory.WF := by
  rw [exec_eq]
  rcases m.decode with ⟨fault | e, n⟩
  · exact hm
  · cases e with
    | store a value => exact Memory.put_wf hm a value
    | jump target =>
        simp only [apply]
        cases (m.advance n).jumpTarget target <;> exact hm
    | _ => exact hm

end Machine

/-! ### One turn

What holds of an instruction holds of a turn, since a turn adds an input or an output, and neither
has anything to do with the bound.
-/

namespace Batch

/-- The batch without the bound on its jumps. -/
def unbounded (b : Batch) : Batch := { b with machine := b.machine.unbounded }

theorem turn_wf {b b' : Batch} (hb : b.machine.memory.WF) (h : b.turn = (b', none)) :
    b'.machine.memory.WF := by
  have hexec := Machine.exec_wf hb
  rcases of_turn_next h with ⟨m, hm, rfl⟩ | ⟨m, value, hm, rfl⟩ |
    ⟨m, destination, value, queue, hm, -, rfl⟩
  · rw [hm] at hexec
    exact hexec
  · rw [hm] at hexec
    exact hexec
  · rw [hm] at hexec
    exact Memory.put_wf hexec destination value

theorem turn_unbounded {b : Batch} (h : ∀ target, ¬ b.machine.Rejects target) :
    b.unbounded.turn = (b.turn.1.unbounded, b.turn.2) := by
  have hexec : b.unbounded.machine.exec = (b.machine.exec.1, b.machine.exec.2.unbounded) :=
    Machine.exec_unbounded h
  rw [turn_eq, turn_eq, hexec]
  rcases b.machine.exec with ⟨fault | _ | stop, m⟩
  · rfl
  · rfl
  · cases stop with
    | input destination =>
        have hqueue : b.unbounded.queue = b.queue := rfl
        rw [hqueue]
        cases b.queue <;> rfl
    | output value => rfl
    | halt => rfl

theorem not_rejects_of_next {b b' : Batch} (h : b.turn = (b', none)) (target : Int) :
    ¬ b.machine.Rejects target := by
  intro hr
  have hexec := Machine.exec_of_rejects hr
  rcases of_turn_next h with ⟨m, hm, -⟩ | ⟨m, value, hm, -⟩ | ⟨m, _, _, _, hm, -, -⟩ <;>
    rw [hm] at hexec <;> cases hexec

/-! ### Any number of turns -/

/-- As long as the bound does not strike, the two batches go in step. -/
theorem Passes.unbounded {n : Nat} {b b' : Batch} (h : Passes n b b') :
    Passes n b.unbounded b'.unbounded := by
  induction h with
  | refl b => exact .refl _
  | step hturn _ ih =>
      refine .step ?_ ih
      rw [turn_unbounded (not_rejects_of_next hturn), hturn]

theorem Passes.wf {n : Nat} {b b' : Batch} (h : Passes n b b') (hb : b.machine.memory.WF) :
    b'.machine.memory.WF := by
  induction h with
  | refl b => exact hb
  | step hturn _ ih => exact ih (turn_wf hb hturn)

/-- Where the bound strikes, the batch without it fails two turns later. -/
theorem turns_of_rejects {b : Batch} {target : Int} (hb : b.machine.memory.WF)
    (h : b.machine.Rejects target) :
    ∃ jumped last, b.unbounded.turn = (jumped, none) ∧
      jumped.turn = (last, some (.failed (Fault.unknownCode 0 target).reported)) := by
  let m : Machine := { b.machine.unbounded with pc := target }
  have hjump : b.unbounded.machine.exec = (.ok none, m) := Machine.exec_unbounded_of_rejects h
  have hpast : m.exec = (.error (Fault.unknownCode 0 target).reported, m.advance 1) :=
    Machine.exec_past_extent hb h.outside
  refine ⟨{ b.unbounded with machine := m }, { b.unbounded with machine := m.advance 1 }, ?_, ?_⟩
  · rw [turn_eq, hjump]
  · rw [turn_eq, hpast]

theorem Ends.unbounded {b last : Batch} {e : Ending} (h : Ends b e last)
    (he : ∀ fault, e ≠ .failed fault) : Ends b.unbounded e last.unbounded := by
  obtain ⟨n, before, hpasses, hturn⟩ := h
  refine ⟨n, before.unbounded, hpasses.unbounded, ?_⟩
  rw [turn_unbounded, hturn]
  intro target hr
  have hexec := Machine.exec_of_rejects hr
  rcases (of_turn_last hturn).2 with ⟨fault, hfailed, -⟩ | ⟨-, hhalt⟩ | ⟨-, -, _, hinput⟩
  · exact he fault hfailed
  · rw [hhalt] at hexec
    cases hexec
  · rw [hinput] at hexec
    cases hexec

/-- An ending other than a failure is reached with the bound as well. -/
theorem Ends.of_unbounded {b : Batch} (hb : b.machine.memory.WF) {last' : Batch} {e : Ending}
    (h : Ends b.unbounded e last') (he : ∀ fault, e ≠ .failed fault) :
    ∃ last, Ends b e last ∧ last.unbounded = last' := by
  obtain ⟨n, before, hpasses, hturn⟩ := h
  induction n generalizing b with
  | zero =>
      cases hpasses
      have hfree : ∀ target, ¬ b.machine.Rejects target := by
        intro target hr
        obtain ⟨jumped, _, hjumped, -⟩ := turns_of_rejects hb hr
        rw [hturn] at hjumped
        cases hjumped
      rw [turn_unbounded hfree] at hturn
      obtain ⟨hlast, hend⟩ := Prod.mk.inj hturn
      exact ⟨b.turn.1, ⟨0, b, .refl b, by rw [← hend]⟩, hlast⟩
  | succ n ih =>
      cases hpasses with
      | @step _ _ next _ hnext hrest =>
          have hfree : ∀ target, ¬ b.machine.Rejects target := by
            intro target hr
            obtain ⟨jumped, last, hjumped, hfails⟩ := turns_of_rejects hb hr
            rw [hnext] at hjumped
            cases hjumped
            -- the failure is the ending, which it is not
            have hends : Ends next (.failed (Fault.unknownCode 0 target).reported) last :=
              ⟨0, next, .refl next, hfails⟩
            exact he _ (hends.unique ⟨n, before, hrest, hturn⟩).1.symm
          rw [turn_unbounded hfree] at hnext
          obtain ⟨rfl, hgoes⟩ := Prod.mk.inj hnext
          have hb' : b.turn = (b.turn.1, none) := by rw [← hgoes]
          obtain ⟨last, hends, rfl⟩ := ih (turn_wf hb hb') hrest
          exact ⟨last, hends.step hb', rfl⟩

end Batch

/-! ### The whole run -/

namespace Machine

/--
**The bound only finds errors early.**  Take any memory that cells and puts have built,
any position and any inputs, with a bound and without.  As long as the bound has not
struck, the two machines have come to the same place, and if it does not strike now,
they go on with the same outcome or fail alike.  If it strikes, the jump leads past the
extent; without the bound it is taken, and the instruction after it fails for want of an
operation with code zero.  So a run with inputs returns with the bound exactly when it
does without it, with the same outputs and the same memory.
-/
theorem bounded_lockstep (cells : Std.TreeMap Int Int) (writes : List (Int × Int))
    (pc relativeBase : Int) (inputs : List Int) :
    let m : Machine := ⟨(Memory.ofMap cells).putAll writes, true, pc, relativeBase, false⟩
    (∀ n b, Batch.Passes n (Batch.start m inputs) b →
      Batch.Passes n (Batch.start m.unbounded inputs) b.unbounded ∧
      ((∀ target, ¬ b.machine.Rejects target) →
        b.machine.unbounded.exec = (b.machine.exec.1, b.machine.exec.2.unbounded)) ∧
      (∀ target, b.machine.Rejects target →
        let jumped : Machine := { b.machine.unbounded with pc := target }
        b.machine.exec.1 =
            .error (Fault.jumpOutside target b.machine.memory.extent).reported ∧
          b.machine.unbounded.exec = (.ok none, jumped) ∧
          jumped.exec = (.error (Fault.unknownCode 0 target).reported, jumped.advance 1)) ∧
      (∀ fault m', b.machine.exec = (.error fault, m') → fault.kind = .jumpOutside →
        ∃ target, b.machine.Rejects target)) ∧
    ∀ outputs memory,
      (∃ after, m.Answers inputs (.ok ()) outputs after ∧ after.memory = memory) ↔
        ∃ after, m.unbounded.Answers inputs (.ok ()) outputs after ∧ after.memory = memory := by
  intro m
  have hm : m.memory.WF := Memory.putAll_wf writes (Memory.ofMap_wf cells)
  refine ⟨fun n b hpasses => ⟨hpasses.unbounded, exec_unbounded, fun target hr => ?_,
    fun fault m' => rejects_of_kind⟩, fun outputs memory => ?_⟩
  · have hb : b.machine.memory.WF := hpasses.wf hm
    exact ⟨exec_of_rejects hr, exec_unbounded_of_rejects hr, exec_past_extent hb hr.outside⟩
  · have hnone : ∀ fault, Ending.halted ≠ .failed fault := fun fault => by simp
    have hreturns := fun m' hfresh => answers_ok_iff (m := m') hfresh inputs outputs
    refine ⟨?_, ?_⟩
    · intro hreturn
      obtain ⟨after, hanswers, rfl⟩ := hreturn
      obtain ⟨b, hends, hwritten, rfl⟩ := (hreturns m rfl after).mp hanswers
      exact ⟨_, (hreturns m.unbounded rfl _).mpr ⟨_, hends.unbounded hnone, hwritten, rfl⟩, rfl⟩
    · intro hreturn
      obtain ⟨after, hanswers, rfl⟩ := hreturn
      obtain ⟨b', hends, hwritten, rfl⟩ := (hreturns m.unbounded rfl after).mp hanswers
      obtain ⟨b, hends', rfl⟩ :=
        Batch.Ends.of_unbounded (b := Batch.start m inputs) hm hends hnone
      exact ⟨_, (hreturns m rfl _).mpr ⟨b, hends', hwritten, rfl⟩, rfl⟩

/-- A jump to the first address past the extent. -/
theorem bounded_lockstep_past_extent :
    let m : Machine := ⟨(Memory.ofMap ∅).putAll [(0, 1105), (1, 1), (2, 3)], true, 0, 0, false⟩
    m.Rejects 3 ∧ m.exec.1 = .error (Fault.jumpOutside 3 m.memory.extent).reported ∧
      ∃ m', { m.unbounded with pc := 3 }.exec = (.error (Fault.unknownCode 0 3).reported, m') := by
  have hempty : (Memory.ofMap ∅).extent = 0 := by simp [Memory.ofMap, Memory.extentOf]
  have hextent : ((Memory.ofMap ∅).putAll [(0, 1105), (1, 1), (2, 3)]).extent = 3 := by
    simp only [Memory.putAll, List.foldl, Memory.extent_put, hempty]
    decide
  have hdecode : decode ⟨(Memory.ofMap ∅).putAll [(0, 1105), (1, 1), (2, 3)], true, 0, 0, false⟩ =
      (.ok (.jump 3), 3) := rfl
  intro m
  have hrejects : m.Rejects 3 := ⟨by rw [hdecode], rfl, by decide, Int.le_of_eq hextent⟩
  have h := (bounded_lockstep ∅ [(0, 1105), (1, 1), (2, 3)] 0 0 []).1 0 _ (.refl _)
  obtain ⟨hbounded, -, hpast⟩ := h.2.2.1 3 hrejects
  exact ⟨hrejects, hbounded, _, hpast⟩

end Machine

end Advent.Intcode
