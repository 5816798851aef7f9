/-
A run that never ends jumps back.

An instruction moves the program counter on, unless it is a jump that is taken, and no
instruction begins with a zero.  So a run that never jumps to its own address or below
uses up the cells ahead of it that are not zero.  It may write new ones, but not for long.
An instruction writes one cell and leaves at least one behind, the word that it began with;
it leaves a second one behind if the operand that says where to write is not zero.  If that
operand is zero, the cell is written at the relative base, or at address zero, which is
never ahead.  Thus `rank` falls: the number of cells ahead, and while it stays, the distance
to the relative base.

Below address zero, where a program can be loaded but not jumped to, the program counter
itself is what rises.
-/
import Mathlib.Data.Finset.Card
import Mathlib.Data.Prod.Lex
import Mathlib.Order.WellFounded
import Advent.Proofs.Intcode.Drive
import Advent.Proofs.Intcode.Instruction

namespace Advent.Intcode

/-! ### Cells that are not zero -/

namespace Memory

/-- The addresses of the cells that are not zero. -/
def support (m : Memory) : Finset Int := (m.nonzero.map Prod.fst).toFinset

theorem mem_support (m : Memory) (a : Int) : a ∈ m.support ↔ m.get a ≠ 0 := by
  simp [support, mem_nonzero]

/-- The addresses from `start` on of cells that are not zero. -/
def supportFrom (m : Memory) (start : Int) : Finset Int := m.support.filter (start ≤ ·)

theorem mem_supportFrom (m : Memory) (start a : Int) :
    a ∈ m.supportFrom start ↔ m.get a ≠ 0 ∧ start ≤ a := by
  rw [supportFrom, Finset.mem_filter, mem_support]

end Memory

namespace Machine

/-- One instruction of a run that goes on: it is carried out, and a stop that it ends in is
answered, with any value where one is wanted. -/
inductive Continues (m : Machine) : Machine → Prop where
  | plain {m' : Machine} (hexec : m.exec = (.ok none, m')) : Continues m m'
  | resumed {stop : Stop} {m' : Machine} (hexec : m.exec = (.ok (some stop), m'))
      (hstop : stop ≠ .halt) (value : Int) : Continues m (m'.answer stop value)

/-- One instruction of a run that goes on and is no jump to its own address or below. -/
structure Onward (m m' : Machine) : Prop where
  continues : m.Continues m'
  ahead : m.Jumps → m.pc < m'.pc

/-! ### What an instruction writes and leaves behind -/

/-- The program counter rises, and the memory is as it was, or one cell is written where
the last parameter says, the relative base being as it was. -/
inductive Rises (m m' : Machine) : Prop where
  | keeps (hpc : m.pc < m'.pc) (hmemory : m'.memory = m.memory)
  | writes (j : Nat) (hpc : m'.pc = m.pc + (j + 2)) (hbase : m'.relativeBase = m.relativeBase)
      (hdigit : m.digit j ≠ 1)
      (hothers : ∀ a, a ≠ m.place j → m'.memory.get a = m.memory.get a)

variable {m m' : Machine}

/-- A legal instruction begins with its code, and no code is zero. -/
theorem word_ne_zero (h : m.Legal) : m.word ≠ 0 := by
  intro hzero
  have hcode := h.code
  rw [opcode, hzero] at hcode
  exact absurd hcode (by decide)

theorem Continues.of_exec (h : m.Continues m') :
    ∃ outcome last, m.exec = (.ok outcome, last) ∧
      (outcome = none ∧ m' = last ∨
        ∃ stop value, outcome = some stop ∧ stop ≠ .halt ∧ m' = last.answer stop value) := by
  cases h with
  | plain hexec => exact ⟨_, _, hexec, Or.inl ⟨rfl, rfl⟩⟩
  | resumed hexec hstop value => exact ⟨_, _, hexec, Or.inr ⟨_, value, rfl, hstop, rfl⟩⟩

/-- **An instruction that does not jump back moves on**, and writes one cell at most. -/
theorem Onward.rises (h : m.Onward m') : m.Rises m' := by
  obtain ⟨outcome, last, hexec, hnext⟩ := h.continues.of_exec
  have hahead := h.ahead
  rw [exec_eq] at hexec
  rcases hd : m.decode with ⟨fault | e, n⟩
  · simp [hd] at hexec
  · obtain ⟨hword, op, hcode, rfl, rfl, -⟩ := of_decode_ok hd
    simp only [hd] at hexec
    -- the two operations that write are an arithmetic one and an input; only a jump may not move on
    cases op with
    | compute f =>
        obtain ⟨hdigit, hplace, -⟩ := of_decode_output hd hcode (j := 2) (Nat.lt_succ_self 2) rfl
        cases hexec
        rcases hnext with ⟨-, rfl⟩ | ⟨_, _, hnone, -⟩
        · refine .writes 2 rfl rfl hdigit fun a ha => ?_
          rw [← hplace] at ha
          exact (Memory.get_put _ _ _ _).trans (if_neg ha)
        · cases hnone
    | input =>
        obtain ⟨hdigit, hplace, -⟩ := of_decode_output hd hcode (j := 0) Nat.one_pos rfl
        cases hexec
        rcases hnext with ⟨hsome, -⟩ | ⟨stop, value, hstop, -, rfl⟩
        · cases hsome
        · cases hstop
          refine .writes 0 rfl rfl hdigit fun a ha => ?_
          rw [← hplace] at ha
          exact (Memory.get_put _ _ _ _).trans (if_neg ha)
    | output =>
        cases hexec
        rcases hnext with ⟨hsome, -⟩ | ⟨stop, value, hstop, -, rfl⟩
        · cases hsome
        · cases hstop
          exact .keeps (Int.lt_add_of_pos_right _ (by decide)) rfl
    | jump onNonzero =>
        rcases effect_jump_cases hword hcode with ⟨hjumps, he⟩ | ⟨-, he⟩
        · rw [he] at hexec
          obtain ⟨-, rfl, rfl⟩ := of_apply_jump_ok hexec
          rcases hnext with ⟨-, rfl⟩ | ⟨_, _, hnone, -⟩
          · exact .keeps (hahead hjumps) rfl
          · cases hnone
        · rw [he] at hexec
          cases hexec
          rcases hnext with ⟨-, rfl⟩ | ⟨_, _, hnone, -⟩
          · exact .keeps (Int.lt_add_of_pos_right _ (Int.natCast_pos.mpr (Nat.succ_pos _))) rfl
          · cases hnone
    | adjustBase =>
        cases hexec
        rcases hnext with ⟨-, rfl⟩ | ⟨_, _, hnone, -⟩
        · exact .keeps (Int.lt_add_of_pos_right _ (by decide)) rfl
        · cases hnone
    | halt =>
        cases hexec
        rcases hnext with ⟨hsome, -⟩ | ⟨stop, value, hstop, hhalt, -⟩
        · cases hsome
        · cases hstop
          exact absurd rfl hhalt

theorem Continues.word_ne_zero (h : m.Continues m') : m.word ≠ 0 := by
  obtain ⟨outcome, last, hexec, -⟩ := h.of_exec
  exact Machine.word_ne_zero ((exec_ok_iff m).mp ⟨outcome, last, hexec⟩)

theorem Rises.pc_lt (h : m.Rises m') : m.pc < m'.pc := by
  cases h with
  | keeps hpc _ => exact hpc
  | writes j hpc _ _ _ => omega

/-! ### The rank of a machine

Cells ahead are used up, because an instruction leaves its word behind.  Where it writes a new cell
ahead it leaves a second one behind, unless it writes relative to the base with a zero for its
operand, so the base lies ahead and comes nearer with every instruction that does not move it.
-/

/-- The cells at the program counter or ahead of it that are not zero. -/
def cellsAhead (m : Machine) : Finset Int := m.memory.supportFrom m.pc

/-- How far the relative base lies ahead of the program counter. -/
def baseAhead (m : Machine) : Nat := (m.relativeBase - m.pc).toNat

/-- What falls with every instruction that does not jump back: how far below zero the program
counter is, the number of cells ahead, and the distance to the relative base. -/
def rank (m : Machine) : Nat ×ₗ Nat ×ₗ Nat :=
  toLex ((-m.pc).toNat, toLex (m.cellsAhead.card, m.baseAhead))

theorem mem_cellsAhead (m : Machine) (a : Int) :
    a ∈ m.cellsAhead ↔ m.memory.get a ≠ 0 ∧ m.pc ≤ a :=
  m.memory.mem_supportFrom m.pc a

/-- Cells are left behind when the program counter moves past them. -/
theorem card_left_behind (m : Machine) {start : Int} (hstart : m.pc ≤ start) (passed : Finset Int)
    (hpassed : ∀ a ∈ passed, a ∈ m.cellsAhead ∧ a < start) :
    (m.memory.supportFrom start).card + passed.card ≤ m.cellsAhead.card := by
  have hdisjoint : Disjoint (m.memory.supportFrom start) passed := by
    rw [Finset.disjoint_left]
    intro a ha hmem
    have hle := ((m.memory.mem_supportFrom start a).mp ha).2
    exact absurd (hpassed a hmem).2 (Int.not_lt.mpr hle)
  rw [← Finset.card_union_of_disjoint hdisjoint]
  refine Finset.card_le_card (Finset.union_subset (fun a ha => ?_) fun a ha => (hpassed a ha).1)
  obtain ⟨hne, hle⟩ := (m.memory.mem_supportFrom start a).mp ha
  exact (m.mem_cellsAhead a).mpr ⟨hne, Int.le_trans hstart hle⟩

/-- The number of cells ahead falls, or it stays and the relative base lies ahead. -/
theorem Rises.card_lt_or (h : m.Rises m') (hpc : 0 ≤ m.pc) (hword : m.word ≠ 0) :
    m'.cellsAhead.card < m.cellsAhead.card ∨
      m'.cellsAhead.card ≤ m.cellsAhead.card ∧ m'.relativeBase = m.relativeBase ∧
        m'.pc ≤ m'.relativeBase := by
  have hlt := h.pc_lt
  have hfirst : m.pc ∈ m.cellsAhead := (m.mem_cellsAhead m.pc).mpr ⟨hword, Int.le_refl _⟩
  have hone := m.card_left_behind (Int.le_of_lt hlt) {m.pc} fun a ha => by
    rw [Finset.mem_singleton.mp ha]
    exact ⟨hfirst, hlt⟩
  rw [Finset.card_singleton] at hone
  cases h with
  | keeps _ hmemory =>
      left
      rw [cellsAhead, hmemory]
      exact hone
  | writes j hnext hbase hdigit hothers =>
      -- one cell is new at most, and the word of the instruction is left behind
      have hsubset : m'.cellsAhead ⊆ insert (m.place j) (m.memory.supportFrom m'.pc) := by
        intro a ha
        obtain ⟨hne, hle⟩ := (m'.mem_cellsAhead a).mp ha
        by_cases hplace : a = m.place j
        · exact Finset.mem_insert.mpr (Or.inl hplace)
        · rw [hothers a hplace] at hne
          exact Finset.mem_insert.mpr (Or.inr ((m.memory.mem_supportFrom _ a).mpr ⟨hne, hle⟩))
      by_cases hfar : m'.pc ≤ m.place j
      · have hcard := (Finset.card_le_card hsubset).trans (Finset.card_insert_le _ _)
        by_cases hoperand : m.operand j = 0
        · -- the cell is written at the relative base
          right
          have hplace : m.place j = m.relativeBase := by
            rw [place, hoperand] at hfar ⊢
            split at hfar
            · rename_i hdigit
              rw [if_pos hdigit, Int.add_zero]
            · omega
          exact ⟨by omega, hbase, by rw [hbase, ← hplace]; exact hfar⟩
        · -- the operand is left behind, too
          left
          have htwo := m.card_left_behind (Int.le_of_lt hlt) {m.pc, m.pc + (1 + j)}
            fun a ha => by
              rcases Finset.mem_insert.mp ha with rfl | ha
              · exact ⟨hfirst, hlt⟩
              · rw [Finset.mem_singleton.mp ha]
                exact ⟨(m.mem_cellsAhead _).mpr ⟨hoperand, by omega⟩, by omega⟩
          rw [Finset.card_pair (by omega)] at htwo
          omega
      · -- the cell that is written is left behind as well, so none is new
        left
        refine Nat.lt_of_le_of_lt (Finset.card_le_card fun a ha => ?_) hone
        have hle := ((m'.mem_cellsAhead a).mp ha).2
        rcases Finset.mem_insert.mp (hsubset ha) with rfl | ha
        · exact absurd hle hfar
        · exact ha

/-- **The rank falls** with every instruction that does not jump back. -/
theorem Onward.rank_lt (h : m.Onward m') : m'.rank < m.rank := by
  have hlt := h.rises.pc_lt
  simp only [rank, Prod.Lex.toLex_lt_toLex]
  by_cases hpc : 0 ≤ m.pc
  · right
    refine ⟨by omega, ?_⟩
    rcases h.rises.card_lt_or hpc h.continues.word_ne_zero with hcard | ⟨hcard, hbase, hahead⟩
    · exact Or.inl hcard
    · rcases Nat.lt_or_eq_of_le hcard with hcard | hcard
      · exact Or.inl hcard
      · refine Or.inr ⟨hcard, ?_⟩
        rw [baseAhead, baseAhead, ← hbase]
        omega
  · left
    omega

/-! ### Runs without an end -/

/-- There is no endless row of instructions none of which jumps back. -/
theorem onward_wellFounded : WellFounded fun m' m : Machine => m.Onward m' :=
  Subrelation.wf (fun h => Onward.rank_lt h) (InvImage.wf rank wellFounded_lt)

/-- A run comes to an answer, or to a jump back, by induction on the machines that it goes
through as long as it does not jump back. -/
theorem drive_answers_or_jumps_back (m : Machine) :
    (∃ steps x, m.drive steps = some x) ∨
      ∃ n last after, Passes n m last ∧ last.exec = (.ok none, after) ∧ last.Jumps ∧
        after.pc ≤ last.pc := by
  induction m using onward_wellFounded.induction with
  | _ m ih =>
      rcases hexec : m.exec with ⟨fault | _ | stop, m'⟩
      · exact Or.inl ⟨1, (.error fault, m'), by simp only [drive, hexec]⟩
      · by_cases hback : m.Jumps ∧ m'.pc ≤ m.pc
        · exact Or.inr ⟨0, m, m', .refl m, hexec, hback.1, hback.2⟩
        · have honward : m.Onward m' :=
            ⟨.plain hexec, fun hjumps => Int.not_le.mp fun hle => hback ⟨hjumps, hle⟩⟩
          rcases ih m' honward with ⟨steps, x, hdrive⟩ | ⟨n, last, after, hpasses, hlast⟩
          · exact Or.inl ⟨steps + 1, x, by simp only [drive, hexec, hdrive]⟩
          · exact Or.inr ⟨n + 1, last, after, .step hexec hpasses, hlast⟩
      · exact Or.inl ⟨1, (.ok stop, m'), by simp only [drive, hexec]⟩

/--
**A run that never ends jumps back again and again.**  The instructions that are carried
out, whatever values are handed in, and that are no taken jump to their own address or
below, are well-founded: from no machine do they go on forever.  So in a run without an end
there is always a jump back still to come, and a run that is driven from stop to stop and
comes to no answer has jumped back.  Nothing is assumed of the memory, the program counter,
the relative base and the bound.
-/
theorem endless_runs_jump_back :
    (WellFounded fun m' m : Machine => m.Onward m') ∧
      (∀ run : Nat → Machine, (∀ n, (run n).Continues (run (n + 1))) →
        ∀ n, ∃ k, n ≤ k ∧ (run k).Jumps ∧ (run (k + 1)).pc ≤ (run k).pc) ∧
      ∀ m : Machine, (∀ steps, m.drive steps = none) →
        ∃ n last after, Passes n m last ∧ last.exec = (.ok none, after) ∧ last.Jumps ∧
          after.pc ≤ last.pc := by
  refine ⟨onward_wellFounded, fun run hrun n => ?_, fun m hnone => ?_⟩
  · have : IsWellFounded Machine fun m' m => m.Onward m' := ⟨onward_wellFounded⟩
    obtain ⟨k, hk⟩ := WellFounded.not_rel_apply_succ (r := fun m' m : Machine => m.Onward m')
      fun k => run (n + k)
    have hback : ¬ ((run (n + k)).Jumps → (run (n + k)).pc < (run (n + k + 1)).pc) :=
      fun hahead => hk ⟨hrun (n + k), hahead⟩
    obtain ⟨hjumps, hle⟩ := Classical.not_imp.mp hback
    exact ⟨n + k, Nat.le_add_right n k, hjumps, Int.not_lt.mp hle⟩
  · rcases drive_answers_or_jumps_back m with ⟨steps, x, hdrive⟩ | hback
    · rw [hnone steps] at hdrive
      cases hdrive
    · exact hback

/-- A jump ahead, to a jump back. -/
def shuttle : Machine := { memory := .ofValues [1105, 1, 3, 1106, 0, 0] }

/-- The shuttle goes back and forth for ever, and every second instruction is a jump back. -/
theorem shuttle_jumps_back :
    let run : Nat → Machine := fun n => if n % 2 = 0 then shuttle else { shuttle with pc := 3 }
    (∀ n, (run n).Continues (run (n + 1))) ∧
      ∃ k, 4 ≤ k ∧ (run k).Jumps ∧ (run (k + 1)).pc ≤ (run k).pc := by
  intro run
  have hahead : shuttle.exec = (.ok none, { shuttle with pc := 3 }) := rfl
  have hback : Machine.exec { shuttle with pc := 3 } = (.ok none, shuttle) := rfl
  have hrun : ∀ n, (run n).Continues (run (n + 1)) := by
    intro n
    rcases Nat.mod_two_eq_zero_or_one n with hn | hn
    · have hnext : (n + 1) % 2 = 1 := by omega
      simp only [run, hn, hnext, if_true, Nat.one_ne_zero, if_false]
      exact .plain hahead
    · have hnext : (n + 1) % 2 = 0 := by omega
      simp only [run, hn, hnext, if_true, Nat.one_ne_zero, if_false]
      exact .plain hback
  exact ⟨hrun, endless_runs_jump_back.2.1 run hrun 4⟩

end Machine

end Advent.Intcode
