/-
What one instruction requires and what it does.

The instruction set is written down a second time, number by number and without
operations, roles or effects: `Legal` lists what the word, its mode digits, its
addresses and a taken jump have to satisfy, and `Executes` gives each code its one
line.  Every parameter is resolved against the machine before the step, also where the
instruction overwrites its own words.

`step_ok_iff_legal_and_executes` says that a machine that has not started carries out exactly the
legal instructions, and carries them out as `Executes` says.
-/
import Advent.Proofs.Intcode.Decode
import Advent.Proofs.Intcode.Memory

namespace Advent.Intcode

/-! ### Codes -/

/-- The number of parameters of a code. -/
def arity (code : Int) : Nat :=
  if code ∈ [1, 2, 7, 8] then 3
  else if code ∈ [5, 6] then 2
  else if code ∈ [3, 4, 9] then 1
  else 0

/-- Parameter `j` of a code is an address to write to. -/
def Writes (code : Int) (j : Nat) : Prop :=
  code ∈ [1, 2, 7, 8] ∧ j = 2 ∨ code = 3 ∧ j = 0

theorem Operation.ofCode?_eq_some_iff (n : Nat) (op : Operation) :
    ofCode? n = some op ↔ n = op.code := by
  refine ⟨?_, ?_⟩
  · intro h
    unfold ofCode? at h
    split at h <;> cases h <;> rfl
  · rintro rfl
    rcases op with (_ | _ | _ | _) | _ | _ | (_ | _) | _ | _ <;> rfl

theorem Operation.arity_code (op : Operation) : arity op.code = op.roles.length := by
  rcases op with (_ | _ | _ | _) | _ | _ | (_ | _) | _ | _ <;> rfl

theorem Operation.known_iff (code : Int) :
    code ∈ [1, 2, 3, 4, 5, 6, 7, 8, 9, 99] ↔ ∃ op : Operation, code = op.code := by
  refine ⟨?_, ?_⟩
  · intro h
    simp only [List.mem_cons, List.not_mem_nil, or_false] at h
    rcases h with h | h | h | h | h | h | h | h | h | h
    · exact ⟨.compute .add, h⟩
    · exact ⟨.compute .mul, h⟩
    · exact ⟨.input, h⟩
    · exact ⟨.output, h⟩
    · exact ⟨.jump true, h⟩
    · exact ⟨.jump false, h⟩
    · exact ⟨.compute .lessThan, h⟩
    · exact ⟨.compute .equals, h⟩
    · exact ⟨.adjustBase, h⟩
    · exact ⟨.halt, h⟩
  · intro hright
    obtain ⟨op, rfl⟩ := hright
    rcases op with (_ | _ | _ | _) | _ | _ | (_ | _) | _ | _ <;> simp [code]

theorem Operation.roles_getD (op : Operation) {j : Nat} (hj : j < op.roles.length) :
    op.roles.getD j .input = .input ∧ ¬ Writes op.code j ∨
      op.roles.getD j .input = .output ∧ Writes op.code j := by
  have hlen : op.roles.length ≤ 3 := by
    rcases op with (_ | _ | _ | _) | _ | _ | (_ | _) | _ | _ <;> decide
  have hcases : j = 0 ∨ j = 1 ∨ j = 2 := by omega
  revert hj
  rcases hcases with rfl | rfl | rfl <;>
    rcases op with (_ | _ | _ | _) | _ | _ | (_ | _) | _ | _ <;> simp [roles, Writes, code]

namespace Machine

/-! ### The instruction at the program counter -/

/-- The word of the instruction. -/
def word (m : Machine) : Int := m.memory.get m.pc

/-- Its operation code. -/
def opcode (m : Machine) : Int := m.word % 100

/-- The mode digit of parameter `j`. -/
def digit (m : Machine) (j : Nat) : Int := m.word / 10 ^ (j + 2) % 10

/-- The operand of parameter `j`. -/
def operand (m : Machine) (j : Nat) : Int := m.memory.get (m.pc + (1 + j))

/-- The address that parameter `j` uses unless it is immediate. -/
def place (m : Machine) (j : Nat) : Int :=
  if m.digit j = 2 then m.relativeBase + m.operand j else m.operand j

/-- The value of parameter `j` as an input. -/
def value (m : Machine) (j : Nat) : Int :=
  if m.digit j = 1 then m.operand j else m.memory.get (m.place j)

/-- The instruction is a jump that is taken. -/
def Jumps (m : Machine) : Prop :=
  m.opcode = 5 ∧ m.value 0 ≠ 0 ∨ m.opcode = 6 ∧ m.value 0 = 0

/-- What the instruction at the program counter has to satisfy. -/
structure Legal (m : Machine) : Prop where
  word : 0 ≤ m.word
  code : m.opcode ∈ [1, 2, 3, 4, 5, 6, 7, 8, 9, 99]
  mode : ∀ j, j < arity m.opcode → m.digit j = 0 ∨ m.digit j = 1 ∨ m.digit j = 2
  output : ∀ j, j < arity m.opcode → Writes m.opcode j → m.digit j ≠ 1
  address : ∀ j, j < arity m.opcode → m.digit j ≠ 1 → 0 ≤ m.place j
  jump : m.Jumps → 0 ≤ m.value 1 ∧ (m.bounded = true → m.value 1 < m.memory.extent)

/-- What the instruction at the program counter does: the stop it ends in, if any, and
the machine after it. -/
inductive Executes (m : Machine) : Option Stop → Machine → Prop where
  | add {after : Memory} (hcode : m.opcode = 1)
      (hwrote : m.memory.Wrote (m.place 2) (m.value 0 + m.value 1) after) :
      Executes m none { m with memory := after, pc := m.pc + 4 }
  | mul {after : Memory} (hcode : m.opcode = 2)
      (hwrote : m.memory.Wrote (m.place 2) (m.value 0 * m.value 1) after) :
      Executes m none { m with memory := after, pc := m.pc + 4 }
  | input (hcode : m.opcode = 3) :
      Executes m (some (.input (m.place 0))) { m with pc := m.pc + 2, started := true }
  | output (hcode : m.opcode = 4) :
      Executes m (some (.output (m.value 0))) { m with pc := m.pc + 2, started := true }
  | taken (hjumps : m.Jumps) :
      Executes m none { m with pc := m.value 1 }
  | untaken (hcode : m.opcode = 5 ∨ m.opcode = 6) (hjumps : ¬ m.Jumps) :
      Executes m none { m with pc := m.pc + 3 }
  | lessThan {after : Memory} (hcode : m.opcode = 7)
      (hwrote : m.memory.Wrote (m.place 2) (if m.value 0 < m.value 1 then 1 else 0) after) :
      Executes m none { m with memory := after, pc := m.pc + 4 }
  | equals {after : Memory} (hcode : m.opcode = 8)
      (hwrote : m.memory.Wrote (m.place 2) (if m.value 0 = m.value 1 then 1 else 0) after) :
      Executes m none { m with memory := after, pc := m.pc + 4 }
  | adjustBase (hcode : m.opcode = 9) :
      Executes m none { m with relativeBase := m.relativeBase + m.value 0, pc := m.pc + 2 }
  | halt (hcode : m.opcode = 99) :
      Executes m (some .halt) { m with pc := m.pc + 1, started := true }

/-! ### The two descriptions agree

The numbers are tied to the operation that they stand for, and the value or place of a parameter to
what it comes to.  From there on a legal instruction is one that decodes and whose effect applies.
-/

theorem opcode_eq {m : Machine} (hword : 0 ≤ m.word) : m.opcode = m.fetched.code := by
  have hraw : ((m.word.toNat : Nat) : Int) = m.word := Int.toNat_of_nonneg hword
  show m.word % 100 = ((m.word.toNat % 100 : Nat) : Int)
  rw [Int.natCast_emod, hraw]
  rfl

theorem digit_eq {m : Machine} (hword : 0 ≤ m.word) (j : Nat) :
    m.digit j = m.fetched.modeDigit j := by
  have hraw : ((m.word.toNat : Nat) : Int) = m.word := Int.toNat_of_nonneg hword
  rw [Word.modeDigit_natCast]
  show m.word / 10 ^ (j + 2) % 10 = ((m.word.toNat / 10 ^ (j + 2) % 10 : Nat) : Int)
  rw [Int.natCast_emod, Int.natCast_ediv, hraw, Int.natCast_pow]
  rfl

theorem argument_input {m : Machine} (hword : 0 ≤ m.word) {op : Operation} {j : Nat}
    (hrole : op.roles.getD j .input = .input) : m.argument op j = m.value j := by
  rw [argument, hrole, ← digit_eq hword]
  rfl

theorem argument_output {m : Machine} (hword : 0 ≤ m.word) {op : Operation} {j : Nat}
    (hrole : op.roles.getD j .input = .output) : m.argument op j = m.place j := by
  rw [argument, hrole, ← digit_eq hword]
  rfl

/-- The conditions on the word and its parameters are those of decoding. -/
theorem decode_ok_of_legal {m : Machine} (h : m.Legal) :
    ∃ op : Operation, m.opcode = op.code ∧ m.decode = (.ok (op.effect (m.argument op)), op.roles.length + 1) := by
  obtain ⟨op, hop⟩ := (Operation.known_iff m.opcode).mp h.code
  have hlen : arity m.opcode = op.roles.length := by rw [hop, Operation.arity_code]
  refine ⟨op, hop, (decode_ok_iff m _ _).mpr ⟨h.word, op, ?_, fun j hj => ?_, rfl, rfl⟩⟩
  · rw [Operation.ofCode?_eq_some_iff]
    have := opcode_eq h.word
    omega
  · have hj' : j < arity m.opcode := by omega
    rw [← digit_eq h.word, show op.roles[j] = op.roles.getD j .input by simp [hj]]
    refine ⟨h.mode j hj', ?_, h.address j hj'⟩
    rcases op.roles_getD hj with ⟨hrole, -⟩ | ⟨hrole, hwrites⟩
    · exact Or.inl hrole
    · exact Or.inr ⟨hrole, h.output j hj' (by rw [hop]; exact hwrites)⟩

/-- The operation of an instruction that is decoded, and what is known of its word. -/
theorem of_decode_ok {m : Machine} {e : Effect} {n : Nat} (h : m.decode = (.ok e, n)) :
    0 ≤ m.word ∧ ∃ op : Operation, m.opcode = op.code ∧ e = op.effect (m.argument op) ∧
      n = op.roles.length + 1 ∧
      ∀ j, j < arity m.opcode →
        (m.digit j = 0 ∨ m.digit j = 1 ∨ m.digit j = 2) ∧
        (Writes m.opcode j → m.digit j ≠ 1) ∧ (m.digit j ≠ 1 → 0 ≤ m.place j) := by
  obtain ⟨hword, op, hop, hlegible, he, hn⟩ := (decode_ok_iff m e n).mp h
  have hcode : m.opcode = op.code := by
    rw [opcode_eq hword, (Operation.ofCode?_eq_some_iff _ op).mp hop]
  refine ⟨hword, op, hcode, he, hn, fun j hj => ?_⟩
  rw [hcode, Operation.arity_code] at hj
  have hleg := hlegible j hj
  rw [← digit_eq hword, show op.roles[j] = op.roles.getD j .input by simp [hj]] at hleg
  refine ⟨hleg.mode, fun hwrites => ?_, hleg.address⟩
  rw [hcode] at hwrites
  rcases op.roles_getD hj with ⟨-, hnot⟩ | ⟨hrole, -⟩
  · exact absurd hwrites hnot
  · rcases hleg.use with hc | ⟨-, hne⟩
    · rw [hrole] at hc
      cases hc
    · exact hne

/-- An output parameter that is decoded is not immediate, and comes to its place. -/
theorem of_decode_output {m : Machine} {e : Effect} {n : Nat} (h : m.decode = (.ok e, n))
    {op : Operation} (hcode : m.opcode = op.code) {j : Nat} (hj : j < op.roles.length)
    (hrole : op.roles.getD j .input = .output) :
    m.digit j ≠ 1 ∧ m.argument op j = m.place j ∧ 0 ≤ m.place j := by
  obtain ⟨hword, _, -, -, -, hparams⟩ := of_decode_ok h
  have hwrites : Writes m.opcode j := by
    rw [hcode]
    rcases op.roles_getD hj with ⟨hinput, -⟩ | ⟨-, hwrites⟩
    · rw [hrole] at hinput
      cases hinput
    · exact hwrites
  obtain ⟨-, huse, haddress⟩ := hparams j (by rw [hcode, Operation.arity_code]; exact hj)
  exact ⟨huse hwrites, argument_output hword hrole, haddress (huse hwrites)⟩

/-- A jump operation jumps or does nothing, as the instruction is a taken jump or not. -/
theorem effect_jump_cases {m : Machine} (hword : 0 ≤ m.word) {onNonzero : Bool}
    (hcode : m.opcode = (Operation.jump onNonzero).code) :
    m.Jumps ∧ (Operation.jump onNonzero).effect (m.argument (.jump onNonzero)) =
        .jump (m.value 1) ∨
      ¬ m.Jumps ∧ (Operation.jump onNonzero).effect (m.argument (.jump onNonzero)) = .pass := by
  have hcondition : m.argument (.jump onNonzero) 0 = m.value 0 := argument_input hword rfl
  have htarget : m.argument (.jump onNonzero) 1 = m.value 1 := argument_input hword rfl
  cases onNonzero <;> by_cases h0 : m.value 0 = 0 <;>
    simp [Operation.effect, Jumps, hcode, Operation.code, hcondition, htarget, h0]

/-- An effect is a jump where the instruction is a taken jump, and goes to its second parameter. -/
theorem effect_eq_jump_iff {m : Machine} (hword : 0 ≤ m.word) {op : Operation}
    (hcode : m.opcode = op.code) (target : Int) :
    op.effect (m.argument op) = .jump target ↔ m.Jumps ∧ m.value 1 = target := by
  cases op with
  | jump onNonzero =>
      rcases effect_jump_cases hword hcode with ⟨hjumps, he⟩ | ⟨hjumps, he⟩ <;> simp [he, hjumps]
  | compute f => cases f <;> simp [Operation.effect, Jumps, hcode, Operation.code]
  | _ => simp [Operation.effect, Jumps, hcode, Operation.code]

/-- **An instruction can be carried out exactly when it is legal.** -/
theorem exec_ok_iff (m : Machine) : (∃ outcome m', m.exec = (.ok outcome, m')) ↔ m.Legal := by
  rw [exec_eq]
  refine ⟨?_, ?_⟩
  · intro h
    rcases hd : m.decode with ⟨e | e, n⟩
    · simp [hd] at h
    · obtain ⟨hword, op, hcode, he, -, hparams⟩ := of_decode_ok hd
      rw [hd] at h
      have hadmits := (apply_ok_iff (m.advance n) e).mp h
      refine ⟨hword, (Operation.known_iff _).mpr ⟨op, hcode⟩, fun j hj => (hparams j hj).1,
        fun j hj => (hparams j hj).2.1, fun j hj => (hparams j hj).2.2, fun hjumps => ?_⟩
      exact hadmits _ (by rw [he, effect_eq_jump_iff hword hcode]; exact ⟨hjumps, rfl⟩)
  · intro h
    obtain ⟨op, hcode, hd⟩ := decode_ok_of_legal h
    rw [hd]
    refine (apply_ok_iff _ _).mpr fun target htarget => ?_
    obtain ⟨hjumps, rfl⟩ := (effect_eq_jump_iff h.word hcode target).mp htarget
    exact h.jump hjumps

/-- **A legal instruction does what its code says.** -/
theorem exec_executes {m m' : Machine} {outcome : Option Stop}
    (h : m.exec = (.ok outcome, m')) :
    m.Executes outcome { m' with started := outcome.isSome || m.started } := by
  rw [exec_eq] at h
  rcases hd : m.decode with ⟨e | e, n⟩
  · simp [hd] at h
  · obtain ⟨hword, op, hcode, rfl, rfl, -⟩ := of_decode_ok hd
    simp only [hd] at h
    cases op with
    -- what a parameter comes to is its value or its place, depending on its role
    | compute f =>
        have h0 : m.argument (.compute f) 0 = m.value 0 := argument_input hword rfl
        have h1 : m.argument (.compute f) 1 = m.value 1 := argument_input hword rfl
        have h2 : m.argument (.compute f) 2 = m.place 2 := argument_output hword rfl
        simp only [Operation.effect, apply, h0, h1, h2] at h
        cases h
        have hwrote := Memory.put_wrote m.memory (m.place 2) (f.apply (m.value 0) (m.value 1))
        cases f with
        | add => exact .add hcode hwrote
        | mul => exact .mul hcode hwrote
        | lessThan => exact .lessThan hcode hwrote
        | equals => exact .equals hcode hwrote
    | input =>
        have h0 : m.argument .input 0 = m.place 0 := argument_output hword rfl
        simp only [Operation.effect, apply, h0] at h
        cases h
        exact .input hcode
    | output =>
        have h0 : m.argument .output 0 = m.value 0 := argument_input hword rfl
        simp only [Operation.effect, apply, h0] at h
        cases h
        exact .output hcode
    | jump onNonzero =>
        rcases effect_jump_cases hword hcode with ⟨hjumps, he⟩ | ⟨hjumps, he⟩
        · rw [he] at h
          obtain ⟨-, rfl, rfl⟩ := of_apply_jump_ok h
          exact .taken hjumps
        · rw [he] at h
          cases h
          refine .untaken ?_ hjumps
          cases onNonzero
          · exact Or.inr hcode
          · exact Or.inl hcode
    | adjustBase =>
        have h0 : m.argument .adjustBase 0 = m.value 0 := argument_input hword rfl
        simp only [Operation.effect, apply, h0] at h
        cases h
        exact .adjustBase hcode
    | halt =>
        cases h
        exact .halt hcode

/--
**A step succeeds exactly on a legal instruction, and does what its code says.**  The
machine has neither been run nor stopped; nothing is assumed of its memory, its program
counter, its relative base or whether it is bounded.
-/
theorem step_ok_iff_legal_and_executes (m : Machine) (hfresh : m.started = false) :
    ((∃ outcome m', m.step = (.ok outcome, m')) ↔ m.Legal) ∧
      ∀ outcome m', m.step = (.ok outcome, m') → m.Executes outcome m' := by
  refine ⟨?_, ?_⟩
  · rw [← exec_ok_iff]
    simp only [step, hfresh, Bool.false_eq_true, if_false]
    rcases hexec : m.exec with ⟨fault | _ | stop, m'⟩ <;> simp
  · intro outcome m' h
    simp only [step, hfresh, Bool.false_eq_true, if_false] at h
    rcases hexec : m.exec with ⟨fault | _ | stop, m''⟩
    · simp [hexec] at h
    · simp only [hexec, Prod.mk.injEq, Except.ok.injEq] at h
      obtain ⟨rfl, rfl⟩ := h
      have hstill : m''.started = m.started := by
        rw [← exec_started m, hexec]
      have hexecutes := exec_executes hexec
      rwa [Option.isSome_none, Bool.false_or, ← hstill] at hexecutes
    · simp only [hexec, Prod.mk.injEq, Except.ok.injEq] at h
      obtain ⟨rfl, rfl⟩ := h
      exact exec_executes hexec

/-- An addition that overwrites its own word, on a fresh machine. -/
theorem step_self_modifying :
    let m : Machine := { memory := .ofValues [1101, 5, 6, 0, 99] }
    m.started = false ∧ m.Legal ∧ ∃ m', m.step = (.ok none, m') ∧ m.Executes none m' ∧
      m'.memory.get 0 = 11 ∧ m'.pc = 4 := by
  have h := step_ok_iff_legal_and_executes { memory := .ofValues [1101, 5, 6, 0, 99] } rfl
  exact ⟨rfl, h.1.mp ⟨none, _, rfl⟩, _, rfl, h.2 none _ rfl, rfl, rfl⟩

end Machine

end Advent.Intcode
