/-
A machine with its input and output at hand.

A `Batch` carries the values that it may still read and those that it has written.  It
never pauses: an input takes the next value and writes it before the instruction is
over, an output appends its value, and everything else is applied as the machine would.
It ends when it halts, when an instruction fails, or when an input finds no value.

`turn` is written against the decoded effect, so no stop ever arises in it.  `turn_eq`
says what it is in terms of the instructions of a machine that does stop: the
instruction, the stop and the answer to the stop taken together.
-/
import Advent.Proofs.Intcode.Drive
import Advent.Proofs.Intcode.Faults

namespace Advent.Intcode

/-- A machine with the values it has read, those it may still read and those it has
written, each in order. -/
structure Batch where
  machine : Machine
  read : List Int
  queue : List Int
  written : List Int

/-- How a batch ends. -/
inductive Ending where
  | halted
  /-- An input found no value. -/
  | starved
  | failed (fault : Fault)

/-- What a caller is told of an ending after this many supplied values. -/
def Ending.result (supplied : Nat) : Ending → Except Fault Unit
  | .halted => .ok ()
  | .starved => Fault.raise (.inputExhausted supplied)
  | .failed fault => .error fault

namespace Batch

/-- A batch before its first instruction. -/
def start (m : Machine) (inputs : List Int) : Batch := ⟨m, [], inputs, []⟩

/-- One instruction, with its input or output, and the ending if it is the last. -/
def turn (b : Batch) : Batch × Option Ending :=
  match b.machine.decode with
  | (.error fault, n) => ({ b with machine := b.machine.advance n }, some (.failed fault))
  | (.ok (.await destination), n) =>
    let m := b.machine.advance n
    match b.queue with
    | [] => ({ b with machine := m }, some .starved)
    | value :: queue =>
      ({ machine := { m with memory := m.memory.put destination value }
         read := b.read ++ [value]
         queue
         written := b.written }, none)
  | (.ok (.emit value), n) =>
    ({ b with machine := b.machine.advance n, written := b.written ++ [value] }, none)
  | (.ok .halt, n) => ({ b with machine := b.machine.advance n }, some .halted)
  | (.ok e, n) =>
    match (b.machine.advance n).apply e with
    | (.error fault, m) => ({ b with machine := m }, some (.failed fault))
    | (.ok _, m) => ({ b with machine := m }, none)

/-- So many turns, none of which is the last, lead from one batch to another. -/
inductive Passes : Nat → Batch → Batch → Prop where
  | refl (b : Batch) : Passes 0 b b
  | step {n : Nat} {b b' last : Batch} (hturn : b.turn = (b', none))
      (hrest : Passes n b' last) : Passes (n + 1) b last

/-- The batch ends in this way, and then is that batch. -/
def Ends (b : Batch) (e : Ending) (b' : Batch) : Prop :=
  ∃ n last, Passes n b last ∧ last.turn = (b', some e)

/-! ### Turns and instructions

A machine that pauses and one that has its input at hand are told apart by what follows an
instruction.  These lemmas take turns apart, so that no later proof has to look at a decoded effect.
-/

/-- A turn is an instruction, the stop it ends in and the answer to that stop. -/
theorem turn_eq (b : Batch) :
    b.turn = match b.machine.exec with
      | (.error fault, m) => ({ b with machine := m }, some (.failed fault))
      | (.ok none, m) => ({ b with machine := m }, none)
      | (.ok (some .halt), m) => ({ b with machine := m }, some .halted)
      | (.ok (some (.output value)), m) =>
        ({ b with machine := m, written := b.written ++ [value] }, none)
      | (.ok (some (.input destination)), m) =>
        match b.queue with
        | [] => ({ b with machine := m }, some .starved)
        | value :: queue =>
          (⟨m.answer (.input destination) value, b.read ++ [value], queue, b.written⟩, none) := by
  unfold turn
  rw [Machine.exec_eq]
  rcases b.machine.decode with ⟨fault | e, n⟩
  · rfl
  · cases e with
    | jump target =>
        simp only [Machine.apply]
        cases (b.machine.advance n).jumpTarget target <;> rfl
    | await destination => cases b.queue <;> rfl
    | _ => rfl

theorem of_turn_last {b b' : Batch} {e : Ending} (h : b.turn = (b', some e)) :
    b' = { b with machine := b'.machine } ∧
      ((∃ fault, e = .failed fault ∧ b.machine.exec = (.error fault, b'.machine)) ∨
        (e = .halted ∧ b.machine.exec = (.ok (some .halt), b'.machine)) ∨
        (e = .starved ∧ b.queue = [] ∧
          ∃ destination, b.machine.exec = (.ok (some (.input destination)), b'.machine))) := by
  rw [turn_eq] at h
  rcases hexec : b.machine.exec with ⟨fault | _ | stop, m⟩
  · simp only [hexec] at h
    cases h
    exact ⟨rfl, Or.inl ⟨fault, rfl, rfl⟩⟩
  · simp [hexec] at h
  · cases stop with
    | input destination =>
        rcases hqueue : b.queue with _ | ⟨value, queue⟩
        · simp only [hexec, hqueue] at h
          cases h
          exact ⟨rfl, Or.inr (Or.inr ⟨rfl, rfl, destination, rfl⟩)⟩
        · simp [hexec, hqueue] at h
    | output value => simp [hexec] at h
    | halt =>
        simp only [hexec] at h
        cases h
        exact ⟨rfl, Or.inr (Or.inl ⟨rfl, rfl⟩)⟩

/-- A turn that is not the last carries out a plain instruction, reads a value, or writes one. -/
theorem of_turn_next {b b' : Batch} (h : b.turn = (b', none)) :
    (∃ m, b.machine.exec = (.ok none, m) ∧ b' = { b with machine := m }) ∨
      (∃ m value, b.machine.exec = (.ok (some (.output value)), m) ∧
        b' = { b with machine := m, written := b.written ++ [value] }) ∨
      (∃ m destination value queue, b.machine.exec = (.ok (some (.input destination)), m) ∧
        b.queue = value :: queue ∧
        b' = ⟨m.answer (.input destination) value, b.read ++ [value], queue, b.written⟩) := by
  rw [turn_eq] at h
  rcases hexec : b.machine.exec with ⟨fault | _ | stop, m⟩
  · simp [hexec] at h
  · simp only [hexec] at h
    cases h
    exact Or.inl ⟨m, rfl, rfl⟩
  · cases stop with
    | input destination =>
        rcases hqueue : b.queue with _ | ⟨value, queue⟩
        · simp [hexec, hqueue] at h
        · simp only [hexec, hqueue] at h
          cases h
          exact Or.inr (Or.inr ⟨m, destination, value, queue, rfl, rfl, rfl⟩)
    | output value =>
        simp only [hexec] at h
        cases h
        exact Or.inr (Or.inl ⟨m, value, rfl, rfl⟩)
    | halt => simp [hexec] at h

theorem Ends.step {b b' last : Batch} {e : Ending} (hturn : b.turn = (b', none))
    (h : Ends b' e last) : Ends b e last := by
  obtain ⟨n, before, hpasses, hlast⟩ := h
  exact ⟨n + 1, before, .step hturn hpasses, hlast⟩

/-- Plain instructions are turns that read and write nothing. -/
theorem Ends.of_passes {n : Nat} {m m' : Machine} (hpasses : Machine.Passes n m m') :
    ∀ {read queue written : List Int} {e : Ending} {last : Batch},
      Ends ⟨m', read, queue, written⟩ e last → Ends ⟨m, read, queue, written⟩ e last := by
  induction hpasses with
  | refl m => intro read queue written e last h; exact h
  | step hexec _ ih =>
      intro read queue written e last h
      exact Ends.step (by simp only [turn_eq, hexec]) (ih h)

/-- A batch ends in one way only, for it has one turn at a time. -/
theorem Ends.unique {b last last' : Batch} {e e' : Ending} (h : Ends b e last)
    (h' : Ends b e' last') : e = e' ∧ last = last' := by
  obtain ⟨n, before, hpasses, hturn⟩ := h
  obtain ⟨n', before', hpasses', hturn'⟩ := h'
  induction hpasses generalizing n' with
  | refl b =>
      cases hpasses' with
      | refl =>
          rw [hturn] at hturn'
          simp only [Prod.mk.injEq, Option.some.injEq] at hturn'
          exact ⟨hturn'.2, hturn'.1⟩
      | step hnext _ =>
          rw [hturn] at hnext
          simp at hnext
  | step hnext _ ih =>
      cases hpasses' with
      | refl =>
          rw [hturn'] at hnext
          simp at hnext
      | step hnext' hrest' =>
          rw [hnext] at hnext'
          simp only [Prod.mk.injEq, and_true] at hnext'
          exact ih hturn _ (hnext' ▸ hrest')

/-! ### What every turn keeps -/

/-- A turn takes its input from the front of the queue, or none at all. -/
theorem turn_next_inputs {b b' : Batch} (h : b.turn = (b', none)) :
    b'.read ++ b'.queue = b.read ++ b.queue := by
  rcases of_turn_next h with ⟨m, -, rfl⟩ | ⟨m, value, -, rfl⟩ | ⟨m, _, value, queue, -, hqueue, rfl⟩
  · rfl
  · rfl
  · simp [hqueue]

/-- The values read and those still to be read are the inputs, in order. -/
theorem Ends.inputs {b last : Batch} {e : Ending} (h : Ends b e last) :
    last.read ++ last.queue = b.read ++ b.queue := by
  obtain ⟨n, before, hpasses, hturn⟩ := h
  have hlast : last.read ++ last.queue = before.read ++ before.queue := by
    rw [(of_turn_last hturn).1]
  rw [hlast]
  clear hturn hlast
  induction hpasses with
  | refl b => rfl
  | step hnext _ ih => rw [ih, turn_next_inputs hnext]

/-- A batch is starved only when it has read everything. -/
theorem Ends.queue_of_starved {b last : Batch} (h : Ends b .starved last) : last.queue = [] := by
  obtain ⟨n, before, -, hturn⟩ := h
  obtain ⟨hlast, ⟨_, he, -⟩ | ⟨he, -⟩ | ⟨-, hqueue, -⟩⟩ := of_turn_last hturn
  · cases he
  · cases he
  · rw [hlast]
    exact hqueue

theorem Ends.fault_kind {b last : Batch} {fault : Fault} (h : Ends b (.failed fault) last) :
    fault.kind ∈ Machine.faultKinds := by
  obtain ⟨n, before, -, hturn⟩ := h
  obtain ⟨-, ⟨_, he, hexec⟩ | ⟨he, -⟩ | ⟨he, -⟩⟩ := of_turn_last hturn
  · cases he
    exact Machine.exec_fault_kind hexec
  · cases he
  · cases he

/-- The batch with another started flag. -/
def mark (b : Batch) (started : Bool) : Batch :=
  { b with machine := { b.machine with started } }

theorem turn_mark (b : Batch) (started : Bool) :
    (b.mark started).turn = (b.turn.1.mark started, b.turn.2) := by
  rw [turn_eq, turn_eq, mark, Machine.exec_mark]
  rcases b.machine.exec with ⟨fault | _ | stop, m⟩
  · rfl
  · rfl
  · cases stop with
    | input destination => cases b.queue <;> rfl
    | output value => rfl
    | halt => rfl

theorem Ends.mark {b last : Batch} {e : Ending} (h : Ends b e last) (started : Bool) :
    Ends (b.mark started) e (last.mark started) := by
  obtain ⟨n, before, hpasses, hturn⟩ := h
  induction hpasses with
  | refl b => exact ⟨0, _, .refl _, by rw [turn_mark, hturn]⟩
  | step hnext _ ih => exact Ends.step (by rw [turn_mark, hnext]) (ih hturn)

end Batch

end Advent.Intcode
