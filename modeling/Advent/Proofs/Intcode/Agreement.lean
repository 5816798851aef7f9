/-
Only the values at the addresses from zero on count.

An unbounded machine looks at its memory only by reading values, and only at addresses
that are not negative.  So two machines that stand at the same place over memories that
agree there cannot be told apart, whatever cells hold the values and however far the
extents reach: they carry out the same instructions, stop at the same places and fail
alike, and their memories go on agreeing.

`AgreeOn` is agreement on a set of addresses, and every lemma here holds of any set that
contains the addresses from zero on.  That set itself is the claim about runs; the set of
all addresses is what equality of memories comes to.
-/
import Advent.Proofs.Intcode.Calls
import Advent.Proofs.Intcode.Decode
import Advent.Proofs.Intcode.Memory

namespace Advent.Intcode

/-- Two memories that give the same values to these addresses. -/
def Memory.AgreeOn (A : Int → Prop) (m m' : Memory) : Prop := ∀ a, A a → m.get a = m'.get a

theorem Memory.AgreeOn.put {A : Int → Prop} {m m' : Memory} (h : m.AgreeOn A m') (a value : Int) :
    (m.put a value).AgreeOn A (m'.put a value) := by
  intro b hb
  rw [get_put, get_put]
  by_cases hba : b = a
  · rw [if_pos hba, if_pos hba]
  · rw [if_neg hba, if_neg hba]
    exact h b hb

theorem Memory.AgreeOn.copy {A : Int → Prop} {m m' : Memory} (h : m.AgreeOn A m') :
    m.copy.AgreeOn A m'.copy := h

/-- Equal memories agree everywhere, and no others do. -/
theorem Memory.agreeOn_univ_iff (m m' : Memory) :
    m.AgreeOn (fun _ => True) m' ↔ (m == m') = true := by
  rw [beq_iff]
  exact ⟨fun h a => h a trivial, fun h a _ => h a⟩

namespace Machine

/-! ### Instruction after instruction -/

/-- How a run goes on after an instruction: an input takes a value, and an output is
passed by.  Nothing comes after a halt, a failure or an input without a value. -/
def proceed (inputs : List Int) : Except Fault (Option Stop) × Machine → Option (List Int × Machine)
  | (.ok none, m) | (.ok (some (.output _)), m) => some (inputs, m)
  | (.ok (some (.input destination)), m) =>
    match inputs with
    | [] => none
    | value :: inputs => some (inputs, m.answer (.input destination) value)
  | (.ok (some .halt), _) | (.error _, _) => none

/-- What comes of so many instructions with these inputs, one after another, and the
machine after the last of them. -/
def outcomes : Nat → List Int → Machine → List (Except Fault (Option Stop)) × Machine
  | 0, _, m => ([], m)
  | n + 1, inputs, m =>
    match proceed inputs m.exec with
    | none => ([m.exec.1], m.exec.2)
    | some (inputs, next) =>
      let (later, last) := outcomes n inputs next
      (m.exec.1 :: later, last)

/-! ### Machines that are alike -/

/-- Two unbounded machines at the same place, over memories that agree. -/
structure Alike (A : Int → Prop) (m m' : Machine) : Prop where
  same : m' = { m with memory := m'.memory }
  unbounded : m.bounded = false
  pc : 0 ≤ m.pc
  agree : m.memory.AgreeOn A m'.memory

variable {A : Int → Prop} {m m' : Machine}

theorem Alike.congr {m₁ m₁' : Machine} (h : m.Alike A m')
    (hsame : m₁' = { m₁ with memory := m₁'.memory }) (hbounded : m₁.bounded = m.bounded)
    (hpc : 0 ≤ m₁.pc) (hagree : m₁.memory.AgreeOn A m₁'.memory) : m₁.Alike A m₁' :=
  ⟨hsame, hbounded.trans h.unbounded, hpc, hagree⟩

theorem Alike.advance (h : m.Alike A m') {n : Int} (hn : 0 ≤ n) :
    (m.advance n).Alike A (m'.advance n) := by
  refine h.congr ?_ rfl (Int.add_nonneg h.pc hn) h.agree
  rw [h.same]
  rfl

theorem Alike.store (h : m.Alike A m') (a value : Int) :
    Alike A { m with memory := m.memory.put a value } { m' with memory := m'.memory.put a value } := by
  refine h.congr ?_ rfl h.pc (h.agree.put a value)
  rw [h.same]

theorem Alike.mark (h : m.Alike A m') (started : Bool) :
    Alike A { m with started } { m' with started } := by
  refine h.congr ?_ rfl h.pc h.agree
  rw [h.same]

/-- The same answer, and machines that are alike. -/
def AlikeAfter (A : Int → Prop) {α : Type} (x x' : α × Machine) : Prop :=
  ∃ last', x' = (x.1, last') ∧ x.2.Alike A last'

/-! ### One instruction

`A` is any set of addresses that has those from zero on.  An instruction reads at the program
counter and behind it, and at addresses that were checked, and all of these are in the set.
-/

section Nonnegative

variable (hA : ∀ a, 0 ≤ a → A a)

include hA

/-- An address that is checked is not negative, so both memories give it the same value. -/
theorem address_map_congr {mem mem' : Memory} (h : mem.AgreeOn A mem') (a : Int) :
    (address a).map mem'.get = (address a).map mem.get := by
  unfold address
  by_cases hneg : a < 0
  · rw [if_pos hneg]
    rfl
  · rw [if_neg hneg]
    exact congrArg Except.ok (h a (hA a (Int.not_lt.mp hneg))).symm

theorem inputParam_congr (h : m.Alike A m') (mode : Mode) : m'.inputParam mode = m.inputParam mode := by
  have hoperand := h.agree _ (hA _ h.pc)
  rw [h.same]
  cases mode with
  | position =>
      simp only [inputParam, ← hoperand]
      exact address_map_congr hA h.agree _
  | immediate => simp only [inputParam, ← hoperand]
  | relative =>
      simp only [inputParam, ← hoperand]
      exact address_map_congr hA h.agree _

theorem outputParam_congr (h : m.Alike A m') (mode : Mode) :
    m'.outputParam mode = m.outputParam mode := by
  have hoperand := h.agree _ (hA _ h.pc)
  rw [h.same]
  simp only [outputParam, ← hoperand]

theorem param_congr (h : m.Alike A m') (w : Word) (i : Nat) (role : Role) :
    m'.param w i role = m.param w i role := by
  unfold param
  simp only [inputParam_congr hA h, outputParam_congr hA h]

/-- Between two parameters the program counter moves on, and stays where the memories agree. -/
theorem params_congr (w : Word) (roles : List Role) :
    ∀ {m m' : Machine} (i : Nat), m.Alike A m' → m'.params w i roles = m.params w i roles := by
  induction roles with
  | nil => intro m m' i _; rfl
  | cons role roles ih =>
      intro m m' i h
      rw [params, params, param_congr hA h, ih (i + 1) (h.advance (by decide))]

/-- **Decoding sees no difference.** -/
theorem decode_congr (h : m.Alike A m') : m'.decode = m.decode := by
  have hpc : m'.pc = m.pc := by rw [h.same]
  have hword : m'.memory.get m.pc = m.memory.get m.pc := (h.agree _ (hA _ h.pc)).symm
  have hparams : ∀ w roles, (m'.advance 1).params w 0 roles = (m.advance 1).params w 0 roles :=
    fun w roles => params_congr hA w roles 0 (h.advance (by decide))
  unfold decode
  simp only [hpc, hword, hparams]

omit hA in
/-- An effect writes the same value to both memories, or moves both machines alike. -/
theorem apply_congr (h : m.Alike A m') (e : Effect) : AlikeAfter A (m.apply e) (m'.apply e) := by
  cases e with
  | store a value => exact ⟨_, rfl, h.store a value⟩
  | await destination => exact ⟨_, rfl, h⟩
  | emit value => exact ⟨_, rfl, h⟩
  | pass => exact ⟨_, rfl, h⟩
  | halt => exact ⟨_, rfl, h⟩
  | shift offset =>
      refine ⟨_, rfl, h.congr ?_ rfl h.pc h.agree⟩
      rw [h.same]
      rfl
  | jump target =>
      -- the extents may differ, but an unbounded machine does not look at them
      have htarget : m'.jumpTarget target = m.jumpTarget target := by
        have hbounded : m'.bounded = false := by rw [h.same, h.unbounded]
        unfold jumpTarget
        simp only [h.unbounded, hbounded, Bool.false_eq_true, false_and, if_false]
      simp only [apply, htarget]
      cases ht : m.jumpTarget target with
      | error fault => exact ⟨_, rfl, h⟩
      | ok a =>
          obtain ⟨⟨hnonneg, -⟩, rfl⟩ := (jumpTarget_ok_iff m target a).mp ht
          refine ⟨_, rfl, h.congr ?_ rfl hnonneg h.agree⟩
          rw [h.same]

/-- **Machines that are alike carry out the same instruction** and are alike after it. -/
theorem exec_congr (h : m.Alike A m') : AlikeAfter A m.exec m'.exec := by
  rw [exec_eq, exec_eq, decode_congr hA h]
  rcases m.decode with ⟨fault | e, n⟩
  · exact ⟨_, rfl, h.advance (Int.natCast_nonneg n)⟩
  · exact apply_congr (h.advance (Int.natCast_nonneg n)) e

/-- A step is guarded by the flag, which is the same on both machines. -/
theorem step_congr (h : m.Alike A m') : AlikeAfter A m.step m'.step := by
  have hstarted : m'.started = m.started := by rw [h.same]
  obtain ⟨last', hexec', hlast⟩ := exec_congr hA h
  unfold step
  rw [hstarted, hexec']
  by_cases hs : m.started = true
  · rw [if_pos hs, if_pos hs]
    exact ⟨_, rfl, h⟩
  · rw [if_neg hs, if_neg hs]
    rcases hexec : m.exec with ⟨fault | _ | stop, last⟩ <;> rw [hexec] at hlast
    · exact ⟨_, rfl, hlast⟩
    · exact ⟨_, rfl, hlast⟩
    · exact ⟨_, rfl, hlast.mark true⟩

/-! ### Runs -/

/-- A run leads to machines that are alike, by induction on the allowance. -/
theorem drive_congr (steps : Nat) :
    ∀ {m m' : Machine}, m.Alike A m' →
      Option.Rel (AlikeAfter A) (m.drive steps) (m'.drive steps) := by
  induction steps with
  | zero => intro m m' _; exact .none
  | succ steps ih =>
      intro m m' h
      obtain ⟨last', hexec', hlast⟩ := exec_congr hA h
      rw [drive, drive, hexec']
      rcases hexec : m.exec with ⟨fault | _ | stop, last⟩ <;> rw [hexec] at hlast
      · exact .some ⟨_, rfl, hlast⟩
      · exact ih hlast
      · exact .some ⟨_, rfl, hlast⟩

theorem run_congr (h : m.Alike A m') (steps : Nat) :
    Option.Rel (AlikeAfter A) (m.run steps) (m'.run steps) := by
  have hstarted : m'.started = m.started := by rw [h.same]
  unfold run
  rw [hstarted]
  by_cases hs : m.started = true
  · rw [if_pos hs, if_pos hs]
    exact .some ⟨_, rfl, h⟩
  · rw [if_neg hs, if_neg hs]
    exact drive_congr hA steps (h.mark true)

omit hA in
/-- An answer is written to both memories. -/
theorem Alike.answer (h : m.Alike A m') (stop : Stop) (value : Int) :
    (m.answer stop value).Alike A (m'.answer stop value) := by
  cases stop with
  | input destination => exact h.store destination value
  | output _ => exact h
  | halt => exact h

/-- Transcripts with the same events and the same result, of machines that are alike. -/
def AlikeTranscripts (A : Int → Prop) (t t' : Transcript) : Prop :=
  ∃ last', t' = { t with machine := last' } ∧ t.machine.Alike A last'

/-- A conversation is the same leg by leg, and the same values are handed in between. -/
theorem converse_congr (steps legs : Nat) :
    ∀ {m m' : Machine} (pending : List Int) (supplied : Nat) (past : List Event), m.Alike A m' →
      Option.Rel (AlikeTranscripts A) (m.converse steps legs pending supplied past)
        (m'.converse steps legs pending supplied past) := by
  induction legs with
  | zero => intro m m' pending supplied past _; exact .none
  | succ legs ih =>
      intro m m' pending supplied past h
      have hdrive := drive_congr hA steps h
      rw [converse, converse]
      generalize m.drive steps = x, m'.drive steps = x' at hdrive
      cases hdrive with
      | none => exact .none
      | @some x x' hafter =>
          obtain ⟨result, last⟩ := x
          obtain ⟨last', rfl, hlast⟩ := hafter
          rcases result with fault | stop
          · exact .some ⟨_, rfl, hlast⟩
          · -- the two machines stop at the same place
            have hevent : last'.event stop = last.event stop := by
              have hpc : last'.pc = last.pc := by rw [hlast.same]
              unfold event
              rw [hpc]
            simp only [hevent]
            cases stop with
            | halt => exact .some ⟨_, rfl, hlast⟩
            | output value => exact ih pending supplied _ hlast
            | input destination =>
                cases pending with
                | nil => exact .some ⟨_, rfl, hlast⟩
                | cons value pending =>
                    exact ih pending (supplied + 1) _ (hlast.answer (.input destination) value)

theorem runWithInputs_congr (h : m.Alike A m') (steps : Nat) (inputs : List Int) :
    Option.Rel (AlikeTranscripts A) (m.runWithInputs steps inputs)
      (m'.runWithInputs steps inputs) := by
  have hstarted : m'.started = m.started := by rw [h.same]
  unfold runWithInputs
  rw [hstarted]
  -- the flag is the same on both machines, so both are refused or neither is
  by_cases hs : m.started = true
  · rw [if_pos hs, if_pos hs]
    exact .some ⟨_, rfl, h⟩
  · rw [if_neg hs, if_neg hs]
    exact converse_congr hA steps steps inputs 0 [] (h.mark true)

omit hA in
theorem proceed_congr {x x' : Except Fault (Option Stop) × Machine} (h : AlikeAfter A x x')
    (inputs : List Int) : Option.Rel (AlikeAfter A) (proceed inputs x) (proceed inputs x') := by
  obtain ⟨last', rfl, hlast⟩ := h
  rcases x with ⟨fault | _ | stop, last⟩
  · exact .none
  · exact .some ⟨_, rfl, hlast⟩
  · cases stop with
    | halt => exact .none
    | output value => exact .some ⟨_, rfl, hlast⟩
    | input destination =>
        cases inputs with
        | nil => exact .none
        | cons value inputs => exact .some ⟨_, rfl, hlast.answer (.input destination) value⟩

/-- Any number of instructions have the same outcomes, and leave machines that are alike. -/
theorem outcomes_congr (n : Nat) :
    ∀ {m m' : Machine} (inputs : List Int), m.Alike A m' →
      AlikeAfter A (m.outcomes n inputs) (m'.outcomes n inputs) := by
  induction n with
  | zero => intro m m' inputs h; exact ⟨_, rfl, h⟩
  | succ n ih =>
      intro m m' inputs h
      obtain ⟨last', hexec', hlast⟩ := exec_congr hA h
      -- what comes next depends on the outcome, which is the same, and on the inputs
      have hnext := proceed_congr ⟨last', hexec', hlast⟩ inputs
      rw [outcomes, outcomes, hexec'] at *
      generalize proceed inputs m.exec = x, proceed inputs (m.exec.1, last') = x' at hnext
      cases hnext with
      | none => exact ⟨_, rfl, hlast⟩
      | @some x x' hafter =>
          obtain ⟨rest, next⟩ := x
          obtain ⟨next', rfl, hnext⟩ := hafter
          obtain ⟨final', hlater, hfinal⟩ := ih rest hnext
          simp only [hlater]
          exact ⟨_, rfl, hfinal⟩

/-! ### Access from outside -/

/-- Addresses that a caller asks for are checked as well. -/
theorem get_congr (h : m.Alike A m') (a : Int) : m'.get a = m.get a := by
  have hmap := address_map_congr hA h.agree a
  unfold get
  cases haddress : address a with
  | error fault => rfl
  | ok b =>
      rw [haddress] at hmap
      exact hmap

omit hA in
theorem put_congr (h : m.Alike A m') (a value : Int) :
    (∃ fault, m.put a value = .error fault ∧ m'.put a value = .error fault) ∨
      ∃ n n', m.put a value = .ok n ∧ m'.put a value = .ok n' ∧ n.Alike A n' := by
  unfold put
  cases address a with
  | error fault => exact Or.inl ⟨fault, rfl, rfl⟩
  | ok b => exact Or.inr ⟨_, _, rfl, rfl, h.store b value⟩

omit hA in
theorem Alike.copy (h : m.Alike A m') : m.copy.Alike A m'.copy := by
  refine h.congr ?_ rfl h.pc h.agree.copy
  rw [h.same]
  rfl

theorem readWord_congr (h : m.Alike A m') : AlikeAfter A m.readWord m'.readWord := by
  have hpc : m'.pc = m.pc := by rw [h.same]
  have hword : m'.memory.get m.pc = m.memory.get m.pc := (h.agree _ (hA _ h.pc)).symm
  refine ⟨m'.advance 1, ?_, h.advance (by decide)⟩
  unfold readWord
  rw [hpc, hword]

theorem readInput_congr (h : m.Alike A m') (mode : Mode) :
    AlikeAfter A (m.readInput mode) (m'.readInput mode) := by
  unfold readInput
  rw [inputParam_congr hA h]
  cases m.inputParam mode with
  | error fault => exact ⟨_, rfl, h⟩
  | ok value => exact ⟨_, rfl, h.advance (by decide)⟩

theorem readOutput_congr (h : m.Alike A m') (mode : Mode) :
    AlikeAfter A (m.readOutput mode) (m'.readOutput mode) := by
  unfold readOutput
  rw [outputParam_congr hA h]
  cases m.outputParam mode with
  | error fault => exact ⟨_, rfl, h⟩
  | ok value => exact ⟨_, rfl, h.advance (by decide)⟩

/-- A caller who reads parameters himself sees no difference either. -/
theorem readParams_congr (h : m.Alike A m') (w : Word) (roles : List Role) :
    AlikeAfter A (m.readParams w roles) (m'.readParams w roles) := by
  unfold readParams
  rw [params_congr hA w roles 0 h]
  exact ⟨_, rfl, h.advance (Int.natCast_nonneg _)⟩

end Nonnegative

end Machine

/-! ### Any sequence of calls

A call looks up a machine, which is like the one in the other store, and what comes of it is put
back in the same place.  So the references in replies are the same, and the stores stay alike.
-/

namespace Store

/-- The replies to calls one after another, and the store after the last of them. -/
def performAll (steps : Nat) : Store → List Call → Option (List (Except Fault Reply) × Store)
  | s, [] => some ([], s)
  | s, c :: calls => do
    let (reply, s) ← s.perform steps c
    let (replies, s) ← performAll steps s calls
    return (reply :: replies, s)

/-- Two stores of unbounded machines that differ in their memories at most, and those agree. -/
structure Alike (A : Int → Prop) (s s' : Store) : Prop where
  frames : s'.frames = s.frames
  stops : s'.stops = s.stops
  size : s'.memories.size = s.memories.size
  unbounded : ∀ r, (s.frame r).bounded = false
  pc : ∀ r, 0 ≤ (s.frame r).pc
  agree : ∀ r, (s.memory r).AgreeOn A (s'.memory r)

/-- The same reply, and stores that are alike. -/
def AlikeAfter (A : Int → Prop) (x x' : Except Fault Reply × Store) : Prop :=
  ∃ t', x' = (x.1, t') ∧ x.2.Alike A t'

variable {A : Int → Prop} {s s' : Store} {m m' : Machine}

theorem Alike.machine (h : s.Alike A s') (r : MachineRef) : (s.machine r).Alike A (s'.machine r) := by
  have hframe : s'.frame r = s.frame r := by
    unfold frame
    rw [h.frames]
  refine ⟨?_, h.unbounded r, h.pc r, ?_⟩
  · unfold Store.machine
    rw [hframe]
  · unfold Store.machine
    rw [hframe]
    exact h.agree _

/-- Stores stay alike when a machine is brought into states that are alike. -/
theorem Alike.setMachine (h : s.Alike A s') (r : MachineRef) (hm : m.Alike A m') :
    (s.setMachine r m).Alike A (s'.setMachine r m') := by
  have hframe : s'.frame r = s.frame r := by
    unfold frame
    rw [h.frames]
  refine ⟨?_, h.stops, ?_, fun p => ?_, fun p => ?_, fun p => ?_⟩
  · rw [hm.same]
    simp only [Store.setMachine, setMemory, hframe, h.frames]
  · simp only [Store.setMachine, setMemory, Array.size_setIfInBounds, h.size]
  · rw [frame_setMachine_cases]
    split
    · exact hm.unbounded
    · exact h.unbounded p
  · rw [frame_setMachine_cases]
    split
    · exact hm.pc
    · exact h.pc p
  · rw [memory_setMachine_cases, memory_setMachine_cases, hframe, h.size]
    split
    · exact hm.agree
    · exact h.agree p

theorem Alike.addStop (h : s.Alike A s') (r : MachineRef) (stop : Stop) :
    (s'.addStop r stop).1 = (s.addStop r stop).1 ∧
      (s.addStop r stop).2.Alike A (s'.addStop r stop).2 := by
  refine ⟨?_, h.frames, ?_, h.size, h.unbounded, h.pc, h.agree⟩
  · simp only [Store.addStop, h.stops]
  · simp only [Store.addStop, h.stops]

theorem Alike.markAnswered (h : s.Alike A s') (q : StopRef) :
    (s.markAnswered q).Alike A (s'.markAnswered q) := by
  refine ⟨h.frames, ?_, h.size, h.unbounded, h.pc, h.agree⟩
  simp only [Store.markAnswered, stopped, h.stops]

theorem Alike.addMachine (h : s.Alike A s') (hm : m.Alike A m') :
    (s'.addMachine m').1 = (s.addMachine m).1 ∧
      (s.addMachine m).2.Alike A (s'.addMachine m').2 := by
  refine ⟨?_, ?_, h.stops, ?_, fun p => ?_, fun p => ?_, fun p => ?_⟩
  · show (⟨s'.frames.size⟩ : MachineRef) = ⟨s.frames.size⟩
    rw [h.frames]
  · rw [hm.same]
    simp only [Store.addMachine, addMemory, h.frames, h.size]
  · simp only [Store.addMachine, addMemory, Array.size_push, h.size]
  · rw [frame_addMachine]
    split
    · exact hm.unbounded
    · exact h.unbounded p
  · rw [frame_addMachine]
    split
    · exact hm.pc
    · exact h.pc p
  · rw [memory_addMachine, memory_addMachine, h.size]
    split
    · exact hm.agree
    · exact h.agree p

theorem Alike.settle (h : s.Alike A s') (r : MachineRef)
    {x x' : Except Fault (Option Stop) × Machine} (hx : Machine.AlikeAfter A x x') :
    AlikeAfter A (s.settle r x) (s'.settle r x') := by
  obtain ⟨last', rfl, hlast⟩ := hx
  rcases x with ⟨fault | _ | stop, last⟩
  · exact ⟨_, rfl, h.setMachine r hlast⟩
  · exact ⟨_, rfl, h.setMachine r hlast⟩
  · obtain ⟨href, hstop⟩ := (h.setMachine r hlast).addStop r stop
    refine ⟨_, ?_, hstop⟩
    simp only [Store.settle, href]

theorem Alike.settleReading (h : s.Alike A s') (r : MachineRef) {α : Type} (reply : α → Reply)
    {x x' : Except Fault α × Machine} (hx : Machine.AlikeAfter A x x') :
    AlikeAfter A (s.settleReading r reply x) (s'.settleReading r reply x') := by
  obtain ⟨last', rfl, hlast⟩ := hx
  exact ⟨_, rfl, h.setMachine r hlast⟩

/-- **A call cannot tell stores that are alike**, and leaves them alike. -/
theorem perform_congr (hA : ∀ a, 0 ≤ a → A a) (h : s.Alike A s') (steps : Nat) (c : Call) :
    Option.Rel (AlikeAfter A) (s.perform steps c) (s'.perform steps c) := by
  cases c with
  | step r => exact .some (h.settle r (Machine.step_congr hA (h.machine r)))
  | run r =>
      have hrun := Machine.run_congr hA (h.machine r) steps
      rw [perform, perform]
      generalize (s.machine r).run steps = x, (s'.machine r).run steps = x' at hrun
      cases hrun with
      | none => exact .none
      | some hafter =>
          obtain ⟨last', rfl, hlast⟩ := hafter
          exact .some (h.settle r ⟨last', rfl, hlast⟩)
  | resume q value =>
      have hstopped : s'.stopped q = s.stopped q := by
        unfold stopped
        rw [h.stops]
      have hdrive := Machine.drive_congr hA steps
        ((h.machine (s.stopped q).machine).answer (s.stopped q).stop value)
      rw [perform_resume_eq, perform_resume_eq, hstopped]
      cases (s.stopped q).refusal with
      | some fault => exact .some ⟨_, rfl, h⟩
      | none =>
          generalize Machine.drive steps (Machine.answer (s.machine _) _ value) = x,
            Machine.drive steps (Machine.answer (s'.machine _) _ value) = x' at hdrive
          cases hdrive with
          | none => exact .none
          | some hafter =>
              obtain ⟨last', rfl, hlast⟩ := hafter
              exact .some ((h.markAnswered q).settle _ ⟨last', rfl, hlast⟩)
  | runWithInputs r inputs =>
      have hrun := Machine.runWithInputs_congr hA (h.machine r) steps inputs
      rw [perform, perform]
      generalize (s.machine r).runWithInputs steps inputs = x,
        (s'.machine r).runWithInputs steps inputs = x' at hrun
      cases hrun with
      | none => exact .none
      | some hafter =>
          obtain ⟨last', rfl, hlast⟩ := hafter
          exact .some ⟨_, rfl, h.setMachine r hlast⟩
  | get r a =>
      rw [perform, perform, Machine.get_congr hA (h.machine r)]
      exact .some ⟨_, rfl, h⟩
  | put r a value =>
      rw [perform, perform]
      rcases Machine.put_congr (h.machine r) a value with ⟨fault, hm, hm'⟩ | ⟨n, n', hm, hm', hn⟩
      · rw [hm, hm']
        exact .some ⟨_, rfl, h⟩
      · rw [hm, hm']
        exact .some ⟨_, rfl, h.setMachine r hn⟩
  | copy r =>
      obtain ⟨href, hcopy⟩ := h.addMachine (h.machine r).copy
      rw [perform, perform]
      refine .some ⟨_, ?_, hcopy⟩
      show (Except.ok (Reply.machine (s'.addMachine (s'.machine r).copy).1), _) = _
      rw [href]
      rfl
  | readWord r => exact .some (h.settleReading r _ (Machine.readWord_congr hA (h.machine r)))
  | readInput r mode =>
      exact .some (h.settleReading r _ (Machine.readInput_congr hA (h.machine r) mode))
  | readOutput r mode =>
      exact .some (h.settleReading r _ (Machine.readOutput_congr hA (h.machine r) mode))
  | readParams r word roles =>
      rw [perform, perform]
      cases Word.ofInt word with
      | error fault => exact .some ⟨_, rfl, h⟩
      | ok w => exact .some (h.settleReading r _ (Machine.readParams_congr hA (h.machine r) w roles))

/-- Any number of calls get the same replies, by induction on the calls. -/
theorem performAll_congr (hA : ∀ a, 0 ≤ a → A a) (steps : Nat) (calls : List Call) :
    ∀ {s s' : Store}, s.Alike A s' →
      Option.Rel (fun x x' => ∃ t', x' = (x.1, t') ∧ x.2.Alike A t') (s.performAll steps calls)
        (s'.performAll steps calls) := by
  induction calls with
  | nil => intro s s' h; exact .some ⟨_, rfl, h⟩
  | cons c calls ih =>
      intro s s' h
      have hcall := perform_congr hA h steps c
      rw [performAll, performAll]
      generalize s.perform steps c = x, s'.perform steps c = x' at hcall
      cases hcall with
      | none => exact .none
      | @some x x' hafter =>
          obtain ⟨reply, t⟩ := x
          obtain ⟨t', rfl, ht⟩ := hafter
          have hrest := ih ht
          simp only [Option.bind_eq_bind, Option.bind_some]
          generalize t.performAll steps calls = y, t'.performAll steps calls = y' at hrest
          cases hrest with
          | none => exact .none
          | some hafter =>
              obtain ⟨last', rfl, hlast⟩ := hafter
              exact .some ⟨_, rfl, hlast⟩

theorem alike_addMachine (h : m.Alike A m') : (empty.addMachine m).2.Alike A (empty.addMachine m').2 := by
  have hempty : empty.Alike A empty :=
    ⟨rfl, rfl, rfl, fun _ => rfl, fun _ => Int.le_refl 0, fun _ _ _ => rfl⟩
  exact (hempty.addMachine h).2

end Store

/-! ### The whole life of a machine -/

namespace Machine

/-- Whatever is done with the one machine comes to the same with the other: instruction
after instruction, and in any sequence of calls on the machine, its copies and its stops.
The memories agree afterwards, and they are equal if they were. -/
structure SameRuns (m m' : Machine) : Prop where
  outcomes : ∀ n inputs, (m'.outcomes n inputs).1 = (m.outcomes n inputs).1
  place : ∀ n inputs, (m'.outcomes n inputs).2.pc = (m.outcomes n inputs).2.pc ∧
    (m'.outcomes n inputs).2.relativeBase = (m.outcomes n inputs).2.relativeBase
  memory : ∀ n inputs,
    (m.outcomes n inputs).2.memory.AgreeOn (0 ≤ ·) (m'.outcomes n inputs).2.memory ∧
      ((m.memory == m'.memory) = true →
        ((m.outcomes n inputs).2.memory == (m'.outcomes n inputs).2.memory) = true)
  calls : ∀ steps calls, Option.Rel
    (fun x x' => x'.1 = x.1 ∧ x'.2.stops = x.2.stops ∧ x'.2.frames = x.2.frames ∧
      ∀ r, (x.2.memory r).AgreeOn (0 ≤ ·) (x'.2.memory r) ∧
        ((m.memory == m'.memory) = true → (x.2.memory r == x'.2.memory r) = true))
    ((Store.empty.addMachine m).2.performAll steps calls)
    ((Store.empty.addMachine m').2.performAll steps calls)

variable {m : Machine}

/-- Agreement from zero on is enough for all that runs show, and equality is agreement everywhere.
-/
theorem sameRuns_of_agree {memory : Memory} (hunbounded : m.bounded = false) (hpc : 0 ≤ m.pc)
    (hagree : m.memory.AgreeOn (0 ≤ ·) memory) : SameRuns m { m with memory } := by
  have halike : m.Alike (0 ≤ ·) { m with memory } := ⟨rfl, hunbounded, hpc, hagree⟩
  have heverywhere : (m.memory == memory) = true → m.Alike (fun _ => True) { m with memory } :=
    fun heq => ⟨rfl, hunbounded, hpc, (Memory.agreeOn_univ_iff _ _).mpr heq⟩
  have hend := fun n inputs => outcomes_congr (fun _ ha => ha) n inputs halike
  refine ⟨fun n inputs => ?_, fun n inputs => ?_, fun n inputs => ⟨?_, fun heq => ?_⟩,
    fun steps calls => ?_⟩
  · obtain ⟨last', hlast', -⟩ := hend n inputs
    rw [hlast']
  · obtain ⟨last', hlast', hlast⟩ := hend n inputs
    rw [hlast']
    exact ⟨by rw [hlast.same], by rw [hlast.same]⟩
  · obtain ⟨last', hlast', hlast⟩ := hend n inputs
    rw [hlast']
    exact hlast.agree
  · obtain ⟨last', hlast', hlast⟩ := outcomes_congr (fun _ _ => trivial) n inputs (heverywhere heq)
    rw [hlast']
    exact (Memory.agreeOn_univ_iff _ _).mp hlast.agree
  · have hcalls := Store.performAll_congr (fun _ ha => ha) steps calls (Store.alike_addMachine halike)
    have hequal := fun heq => Store.performAll_congr (fun _ _ => trivial) steps calls
      (Store.alike_addMachine (heverywhere heq))
    generalize (Store.empty.addMachine m).2.performAll steps calls = x,
      (Store.empty.addMachine { m with memory }).2.performAll steps calls = x' at hcalls hequal
    cases hcalls with
    | none => exact .none
    | some hafter =>
        obtain ⟨t', rfl, ht⟩ := hafter
        refine .some ⟨rfl, ht.stops, ht.frames, fun r => ⟨ht.agree r, fun heq => ?_⟩⟩
        cases hequal heq with
        | some hafter =>
            obtain ⟨u', hu', hu⟩ := hafter
            obtain ⟨-, rfl⟩ := Prod.mk.inj hu'
            exact (Memory.agreeOn_univ_iff _ _).mp (hu.agree r)

/-- Zeros over zeros change no value. -/
theorem agreeOn_putAll_zeros (zeros : List Int) {A : Int → Prop} :
    ∀ {memory : Memory}, (∀ a ∈ zeros, memory.get a = 0) →
      memory.AgreeOn A (memory.putAll (zeros.map fun a => (a, 0))) := by
  induction zeros with
  | nil => intro memory _ a _; rfl
  | cons zero zeros ih =>
      intro memory hzeros
      have hzero : ∀ a, (memory.put zero 0).get a = memory.get a := by
        intro a
        rw [Memory.get_put]
        by_cases ha : a = zero
        · rw [if_pos ha, ha, hzeros zero List.mem_cons_self]
        · rw [if_neg ha]
      have hrest : ∀ a ∈ zeros, (memory.put zero 0).get a = 0 := by
        intro a ha
        rw [hzero, hzeros a (List.mem_cons_of_mem _ ha)]
      intro a ha
      rw [← hzero]
      exact ih hrest a ha

/-- Past the end of a program zeros are read anyway. -/
theorem agreeOn_ofValues_padded (values : List Int) (count : Nat) {A : Int → Prop} :
    (Memory.ofValues values).AgreeOn A (.ofValues (values ++ List.replicate count 0)) := by
  intro a _
  rw [Memory.get_ofValues, Memory.get_ofValues]
  by_cases ha : 0 ≤ a
  · rw [if_pos ha, if_pos ha, List.getElem?_append]
    by_cases hin : a.toNat < values.length
    · rw [if_pos hin]
    · rw [if_neg hin, List.getElem?_eq_none (Nat.le_of_not_lt hin), List.getElem?_replicate]
      split <;> rfl
  · rw [if_neg ha, if_neg ha]

/--
**Memories that agree run alike.**  An unbounded machine may be given any other memory
with the same values at the addresses from zero on, and nothing comes out differently.
In particular zeros may be stored where zeros are read, and a program may be padded with
zeros.
-/
theorem agreeing_memories_run_alike (hunbounded : m.bounded = false) (hpc : 0 ≤ m.pc) :
    (∀ memory, m.memory.AgreeOn (0 ≤ ·) memory → SameRuns m { m with memory }) ∧
    (∀ zeros : List Int, (∀ a ∈ zeros, m.memory.get a = 0) →
      SameRuns m { m with memory := m.memory.putAll (zeros.map fun a => (a, 0)) }) ∧
    (∀ values count, m.memory = .ofValues values →
      SameRuns m { m with memory := .ofValues (values ++ List.replicate count 0) }) := by
  refine ⟨fun memory => sameRuns_of_agree hunbounded hpc, fun zeros hzeros => ?_,
    fun values count hvalues => ?_⟩
  · exact sameRuns_of_agree hunbounded hpc (agreeOn_putAll_zeros zeros hzeros)
  · refine sameRuns_of_agree hunbounded hpc ?_
    rw [hvalues]
    exact agreeOn_ofValues_padded values count

/-- A program that puts out what lies past its end, with that cell stored and without. -/
theorem echo_past_end_runs_alike :
    let m : Machine := { memory := .ofValues [4, 5, 99] }
    let padded : Machine := { memory := .ofValues ([4, 5, 99] ++ List.replicate 3 0) }
    m.bounded = false ∧ 0 ≤ m.pc ∧ SameRuns m padded ∧
      (padded.outcomes 5 []).1 = [.ok (some (.output 0)), .ok (some .halt)] := by
  have h := agreeing_memories_run_alike (m := { memory := .ofValues [4, 5, 99] }) rfl (by decide)
  have hpadded := h.2.2 [4, 5, 99] 3 rfl
  exact ⟨rfl, by decide, hpadded, (hpadded.outcomes 5 []).trans rfl⟩

end Machine

end Advent.Intcode
