/-
An operand may be written in another mode.

A parameter in position mode may as well hold the value itself, and one in relative mode
the address counted from zero: `Recodes` is the change of one mode digit and of one operand
that this takes.  The two machines read the same instruction in two ways, and
`step_of_recoded` says that they carry it out alike, provided that it does not read one of
the two cells that were changed.

A changed digit leaves the others as they are, so each of the other parameters can be read
on one machine exactly when it can be on the other, and the changed one can be read on both.
What the parameters come to is compared only where all of them are read: an instruction that
fails on the way looks at none of the values.
-/
import Mathlib.Tactic.Ring
import Advent.Proofs.Intcode.Instruction
import Advent.Proofs.Intcode.Reading

namespace Advent.Intcode

/-! ### Changing one mode digit

A digit is changed by adding the difference at its place.  So the word below it and above it stays
the same, and it stays as long as it was unless the digit is near the limit.
-/

/-- The word with another mode digit for parameter `j`. -/
def withDigit (word : Int) (j : Nat) (digit : Int) : Int :=
  word + (digit - word / 10 ^ (j + 2) % 10) * 10 ^ (j + 2)

section

variable (word : Int) (j : Nat) {digit : Int}

theorem withDigit_emod_hundred : withDigit word j digit % 100 = word % 100 := by
  have hplace : (10 : Int) ^ (j + 2) = 100 * 10 ^ j := by ring
  have hsplit : withDigit word j digit = word + 100 * ((digit - word / 10 ^ (j + 2) % 10) * 10 ^ j) := by
    unfold withDigit
    rw [hplace]
    ring
  rw [hsplit, Int.add_mul_emod_self_left]

theorem withDigit_ediv :
    withDigit word j digit / 10 ^ (j + 2) =
      word / 10 ^ (j + 2) + (digit - word / 10 ^ (j + 2) % 10) := by
  have hpos : (0 : Int) < 10 ^ (j + 2) := Int.pow_pos (by decide)
  exact Int.add_mul_ediv_right _ _ (by omega)

variable (hdigit : 0 ≤ digit ∧ digit < 10)

include hdigit

theorem withDigit_digit : withDigit word j digit / 10 ^ (j + 2) % 10 = digit := by
  rw [withDigit_ediv]
  omega

theorem withDigit_nonneg (hword : 0 ≤ word) : 0 ≤ withDigit word j digit := by
  have hpos : (0 : Int) < 10 ^ (j + 2) := Int.pow_pos (by decide)
  have hhead : 0 ≤ word / 10 ^ (j + 2) := Int.ediv_nonneg hword (Int.le_of_lt hpos)
  rw [← Int.ediv_nonneg_iff_of_pos hpos, withDigit_ediv]
  omega

/-- The digits above the changed one. -/
theorem withDigit_ediv_above : withDigit word j digit / 10 ^ (j + 3) = word / 10 ^ (j + 3) := by
  have hplace : ∀ n : Int, n / 10 ^ (j + 3) = n / 10 ^ (j + 2) / 10 := by
    intro n
    rw [Int.ediv_ediv_of_nonneg (Int.le_of_lt (Int.pow_pos (by decide)))]
    congr 1
  rw [hplace, hplace, withDigit_ediv]
  omega

theorem withDigit_digit_ne {i : Nat} (hi : i ≠ j) :
    withDigit word j digit / 10 ^ (i + 2) % 10 = word / 10 ^ (i + 2) % 10 := by
  by_cases hlt : i < j
  · -- the change is a multiple of the next higher place
    obtain ⟨k, rfl⟩ : ∃ k, j = i + k + 1 := ⟨j - i - 1, by omega⟩
    have hpos : (10 : Int) ^ (i + 2) ≠ 0 := Int.ne_of_gt (Int.pow_pos (by decide))
    have hsplit : ∀ c : Int, c * 10 ^ (i + k + 1 + 2) = 10 * (c * 10 ^ k) * 10 ^ (i + 2) := by
      intro c
      ring
    unfold withDigit
    rw [hsplit, Int.add_mul_ediv_right _ _ hpos, Int.add_mul_emod_self_left]
  · obtain ⟨k, rfl⟩ : ∃ k, i = j + 1 + k := ⟨i - j - 1, by omega⟩
    have hplace : ∀ n : Int, n / 10 ^ (j + 1 + k + 2) = n / 10 ^ (j + 3) / 10 ^ k := by
      intro n
      rw [Int.ediv_ediv_of_nonneg (Int.le_of_lt (Int.pow_pos (by decide)))]
      congr 1
      ring
    rw [hplace, hplace, withDigit_ediv_above word j hdigit]

end

theorem Word.long_iff (w : Word) : w.Long ↔ (10 : Int) ^ Numeral.maxDigits ≤ w.raw := by
  unfold Word.Long
  rw [Nat.lt_digits_length_iff (by decide)]
  exact_mod_cast Iff.rfl

/-- A word stays as long as it is when a digit far below the limit is changed. -/
theorem long_withDigit_iff {w w' : Word} {j : Nat} {digit : Int} (hdigit : 0 ≤ digit ∧ digit < 10)
    (hj : j + 3 ≤ Numeral.maxDigits) (h : (w'.raw : Int) = withDigit w.raw j digit) :
    w'.Long ↔ w.Long := by
  have hpos : (0 : Int) < 10 ^ (j + 3) := Int.pow_pos (by decide)
  have hsplit : (10 : Int) ^ Numeral.maxDigits = 10 ^ (Numeral.maxDigits - (j + 3)) * 10 ^ (j + 3) := by
    rw [← pow_add, Nat.sub_add_cancel hj]
  rw [Word.long_iff, Word.long_iff, hsplit, ← Int.le_ediv_iff_mul_le hpos,
    ← Int.le_ediv_iff_mul_le hpos, h, withDigit_ediv_above w.raw j hdigit]

namespace Machine

variable {m m' : Machine}

/-! ### Decoding, parameter by parameter -/

/-- Parameter `i` of the instruction at the program counter can be read. -/
structure Readable (m : Machine) (i : Nat) : Prop where
  mode : m.digit i = 0 ∨ m.digit i = 1 ∨ m.digit i = 2
  use : Writes m.opcode i → m.digit i ≠ 1
  place : m.digit i ≠ 1 → 0 ≤ m.place i

theorem legible_iff_readable {op : Operation} (hword : 0 ≤ m.word) (hcode : m.opcode = op.code)
    {i : Nat} (hi : i < op.roles.length) :
    ((m.advance 1).advance i).Legible (m.fetched.modeDigit i) op.roles[i] ↔ m.Readable i := by
  rw [advance_advance, ← digit_eq hword, show op.roles[i] = op.roles.getD i .input by simp [hi]]
  refine ⟨fun h => ⟨h.mode, fun hwrites => ?_, h.address⟩, fun h => ⟨h.mode, ?_, h.place⟩⟩
  · rw [hcode] at hwrites
    rcases op.roles_getD hi with ⟨-, hnot⟩ | ⟨hrole, -⟩
    · exact absurd hwrites hnot
    · rcases h.use with hinput | ⟨-, hne⟩
      · rw [hrole] at hinput
        cases hinput
      · exact hne
  · rcases op.roles_getD hi with ⟨hrole, -⟩ | ⟨hrole, hwrites⟩
    · exact Or.inl hrole
    · exact Or.inr ⟨hrole, h.use (by rw [hcode]; exact hwrites)⟩

section

variable {op : Operation} (hword : 0 ≤ m.word) (hcode : m.opcode = op.code)

include hword hcode

theorem ofCode?_fetched : Operation.ofCode? m.fetched.code = some op := by
  rw [Operation.ofCode?_eq_some_iff]
  have := opcode_eq hword
  omega

theorem decode_of_readable (h : ∀ i < op.roles.length, m.Readable i) :
    m.decode = (.ok (op.effect (m.argument op)), op.roles.length + 1) := by
  refine (decode_ok_iff m _ _).mpr ⟨hword, op, ofCode?_fetched hword hcode, fun i hi => ?_, rfl, rfl⟩
  rw [← advance_advance]
  exact (legible_iff_readable hword hcode hi).mpr (h i hi)

/-- The first parameter that cannot be read is refused, and those after it are not looked at. -/
theorem decode_of_first_unreadable {i : Nat} (hi : i < op.roles.length)
    (hbefore : ∀ k < i, m.Readable k) (hnot : ¬ m.Readable i) :
    m.decode = (.error (((m.advance 1).advance i).refusal m.fetched i op.roles[i]), i + 1) := by
  have hofInt : Word.ofInt (m.memory.get m.pc) = .ok m.fetched :=
    (Word.ofInt_ok_iff _ _).mpr ⟨hword, rfl⟩
  obtain ⟨hresult, hlength⟩ := params_of_first_illegible m.fetched op.roles (m.advance 1) 0 i hi
    (fun k hk => by
      rw [Nat.zero_add]
      exact (legible_iff_readable hword hcode (by omega)).mpr (hbefore k hk))
    (by
      rw [Nat.zero_add, legible_iff_readable hword hcode hi]
      exact hnot)
  rw [Nat.zero_add] at hresult
  simp only [decode, hofInt, ofCode?_fetched hword hcode, hresult, hlength, Except.map]

/-- Either all parameters can be read, or there is a first that cannot. -/
theorem readable_or_first_unreadable :
    (∀ i < op.roles.length, m.Readable i) ∨
      ∃ i < op.roles.length, (∀ k < i, m.Readable k) ∧ ¬ m.Readable i := by
  rcases legible_or_first_illegible (m.advance 1) m.fetched op.roles with hall | ⟨i, hi, hbefore, hnot⟩
  · exact Or.inl fun i hi => (legible_iff_readable hword hcode hi).mp (hall i hi)
  · refine Or.inr ⟨i, hi, fun k hk => ?_, fun h => hnot ((legible_iff_readable hword hcode hi).mpr h)⟩
    exact (legible_iff_readable hword hcode (by omega)).mp (hbefore k hk)

end

/-! ### Recoded machines -/

/-- Parameter `i` of the instruction at the program counter is an input in position or
relative mode, and it and those before it can be read: it is read from the address `a`. -/
structure ReadsFrom (m : Machine) (i : Nat) (a : Int) : Prop where
  param : i < arity m.opcode
  input : ¬ Writes m.opcode i
  mode : m.digit i = 0 ∨ m.digit i = 2
  place : m.place i = a
  reached : ∀ k ≤ i, m.Readable k

/-- `m'` is `m` with another mode digit and another operand for parameter `j` of the
instruction at the program counter. -/
structure Rewritten (m m' : Machine) (j : Nat) (digit operand : Int) : Prop where
  rest : m' = { m with memory := m'.memory }
  word : m'.word = withDigit m.word j digit
  operand : m'.operand j = operand
  others : ∀ a, a ≠ m.pc → a ≠ m.pc + (1 + j) → m'.memory.get a = m.memory.get a

/-- `m'` has parameter `j` of its instruction in another mode: an input in position mode holds
its value, or a parameter in relative mode holds its address. -/
inductive Recodes (m m' : Machine) (j : Nat) : Prop
  | immediate (hinput : ¬ Writes m.opcode j) (hmode : m.digit j = 0) (hplace : 0 ≤ m.operand j)
      (h : m.Rewritten m' j 1 (m.memory.get (m.operand j)))
  | position (hmode : m.digit j = 2) (hplace : 0 ≤ m.relativeBase + m.operand j)
      (h : m.Rewritten m' j 0 (m.relativeBase + m.operand j))

section

variable {j : Nat} {digit operand : Int} (h : m.Rewritten m' j digit operand)
  (hdigit : 0 ≤ digit ∧ digit < 10)

include h

theorem Rewritten.pc : m'.pc = m.pc := by rw [h.rest]

theorem Rewritten.relativeBase : m'.relativeBase = m.relativeBase := by rw [h.rest]

theorem Rewritten.opcode : m'.opcode = m.opcode := by
  unfold Machine.opcode
  rw [h.word, withDigit_emod_hundred]

theorem Rewritten.operand_ne {i : Nat} (hi : i ≠ j) : m'.operand i = m.operand i := by
  unfold Machine.operand
  rw [h.pc]
  exact h.others _ (by omega) (by omega)

include hdigit

theorem Rewritten.word_nonneg (hword : 0 ≤ m.word) : 0 ≤ m'.word := by
  rw [h.word]
  exact withDigit_nonneg m.word j hdigit hword

theorem Rewritten.digit_self : m'.digit j = digit := by
  unfold Machine.digit
  rw [h.word, withDigit_digit m.word j hdigit]

theorem Rewritten.digit_ne {i : Nat} (hi : i ≠ j) : m'.digit i = m.digit i := by
  unfold Machine.digit
  rw [h.word, withDigit_digit_ne m.word j hdigit hi]

theorem Rewritten.place_ne {i : Nat} (hi : i ≠ j) : m'.place i = m.place i := by
  unfold Machine.place
  rw [h.digit_ne hdigit hi, h.operand_ne hi, h.relativeBase]

theorem Rewritten.readable_ne {i : Nat} (hi : i ≠ j) : m'.Readable i ↔ m.Readable i := by
  have hiff : ∀ {m m' : Machine}, m'.opcode = m.opcode → m'.digit i = m.digit i →
      m'.place i = m.place i → m'.Readable i → m.Readable i := by
    intro m m' hopcode hdigit hplace hreadable
    exact ⟨hdigit ▸ hreadable.mode, hopcode ▸ hdigit ▸ hreadable.use, hdigit ▸ hplace ▸ hreadable.place⟩
  exact ⟨hiff h.opcode (h.digit_ne hdigit hi) (h.place_ne hdigit hi),
    hiff h.opcode.symm (h.digit_ne hdigit hi).symm (h.place_ne hdigit hi).symm⟩

/-- The two words are both too long to be written, or neither is. -/
theorem Rewritten.long_iff (hword : 0 ≤ m.word) (hj : j + 3 ≤ Numeral.maxDigits) :
    m'.fetched.Long ↔ m.fetched.Long := by
  refine long_withDigit_iff hdigit hj ?_
  show ((m'.word.toNat : Nat) : Int) = withDigit ((m.word.toNat : Nat) : Int) j digit
  rw [Int.toNat_of_nonneg hword, Int.toNat_of_nonneg (h.word_nonneg hdigit hword), h.word]

end

/-! ### The same instruction

The parameter that was recoded can be read on both machines, and comes to the same.  Any other has
the digit and the operand that it had, so only a value that it reads from a changed cell can tell
the machines apart.
-/

theorem mem_codes_of_lt_arity {code : Int} {j : Nat} (h : j < arity code) :
    code ∈ [1, 2, 3, 4, 5, 6, 7, 8, 9, 99] := by
  unfold arity at h
  simp only [List.mem_cons, List.not_mem_nil, or_false] at h ⊢
  split at h
  · omega
  · split at h
    · omega
    · split at h <;> omega

/-- No operation has so many parameters that their digits come near the limit. -/
theorem arity_add_le (code : Int) : arity code + 3 ≤ Numeral.maxDigits := by
  unfold arity Numeral.maxDigits
  split
  · decide
  · split
    · decide
    · split <;> decide

/-- Faults of a parameter that differ at most in the word are of one kind. -/
theorem refusal_kind_congr {w w' : Word} {i : Nat} (hdigit : w'.modeDigit i = w.modeDigit i)
    (hlong : w'.Long ↔ w.Long) (hpc : m'.pc = m.pc) (hreferent : ∀ d, m'.referent d = m.referent d)
    (role : Role) : (m'.refusal w' i role).kind = (m.refusal w i role).kind := by
  unfold refusal
  rw [hdigit, hpc, hreferent]
  by_cases hlt : 2 < w.modeDigit i
  · rw [if_pos hlt, if_pos hlt]
    unfold Word.modeFault
    by_cases hw : w.Long
    · rw [if_pos hw, if_pos (hlong.mpr hw)]
    · rw [if_neg hw, if_neg fun hw' => hw (hlong.mp hw')]
      rfl
  · rw [if_neg hlt, if_neg hlt]

section

variable {j : Nat} (h : m.Recodes m' j)

include h

theorem Recodes.rewritten :
    ∃ digit operand, (0 ≤ digit ∧ digit < 10) ∧ m.Rewritten m' j digit operand := by
  cases h with
  | immediate hinput hmode hplace h => exact ⟨1, _, by decide, h⟩
  | position hmode hplace h => exact ⟨0, _, by decide, h⟩

/-- The parameter that is recoded can be read in both modes. -/
theorem Recodes.readable_self : m.Readable j ∧ m'.Readable j := by
  cases h with
  | immediate hinput hmode hplace h =>
      have hmode' := h.digit_self (by decide)
      refine ⟨⟨Or.inl hmode, fun _ => by omega, fun _ => ?_⟩,
        ⟨Or.inr (Or.inl hmode'), fun hwrites => ?_, fun hne => absurd hmode' hne⟩⟩
      · simpa [place, hmode] using hplace
      · rw [h.opcode] at hwrites
        exact absurd hwrites hinput
  | position hmode hplace h =>
      have hmode' := h.digit_self (by decide)
      refine ⟨⟨Or.inr (Or.inr hmode), fun _ => by omega, fun _ => ?_⟩,
        ⟨Or.inl hmode', fun _ => by omega, fun _ => ?_⟩⟩
      · simpa [place, hmode] using hplace
      · simpa [place, hmode', h.operand] using hplace

theorem Recodes.readable_iff (i : Nat) : m'.Readable i ↔ m.Readable i := by
  by_cases hi : i = j
  · rw [hi]
    exact iff_of_true h.readable_self.2 h.readable_self.1
  · obtain ⟨digit, operand, hdigit, hrewritten⟩ := h.rewritten
    exact hrewritten.readable_ne hdigit hi

/-- Where a parameter is not immediate on either machine, both look at the same address. -/
theorem Recodes.place_eq {i : Nat} (hplain : i = j → m.digit j = 2) : m'.place i = m.place i := by
  by_cases hi : i = j
  · have hmode := hplain hi
    rw [hi]
    cases h with
    | immediate hinput hzero hplace h => omega
    | position hmode hplace h => simp [place, hmode, h.digit_self (by decide), h.operand]
  · obtain ⟨digit, operand, hdigit, hrewritten⟩ := h.rewritten
    exact hrewritten.place_ne hdigit hi

/-- A parameter that is written to has the same place on both machines. -/
theorem Recodes.place_of_writes {i : Nat} (hwrites : Writes m.opcode i) : m'.place i = m.place i := by
  refine h.place_eq fun hi => ?_
  cases h with
  | immediate hinput hmode hplace h => exact absurd (hi ▸ hwrites) hinput
  | position hmode hplace h => exact hmode

/-- An input that is reached has the same value, if it is not read from a cell that was changed. -/
theorem Recodes.value_eq (hapart : ∀ i a, m.ReadsFrom i a → a ≠ m.pc ∧ a ≠ m.pc + (1 + j))
    {i : Nat} (hi : i < arity m.opcode) (hinput : ¬ Writes m.opcode i)
    (hreadable : ∀ k ≤ i, m.Readable k) : m'.value i = m.value i := by
  obtain ⟨digit, operand, hdigit, hrewritten⟩ := h.rewritten
  have hread : m.digit i = 0 ∨ m.digit i = 2 →
      m'.memory.get (m.place i) = m.memory.get (m.place i) := by
    intro hmode
    obtain ⟨hword, hoperand⟩ := hapart i _ ⟨hi, hinput, hmode, rfl, hreadable⟩
    exact hrewritten.others _ hword hoperand
  by_cases hself : i = j
  · subst hself
    have hsame : m.digit i = 2 → m'.place i = m.place i := fun hmode => h.place_eq fun _ => hmode
    cases h with
    | immediate hinput hmode hplace h =>
        simp [value, place, hmode, h.digit_self (by decide), h.operand]
    | position hmode hplace h =>
        simp [value, hmode, h.digit_self (by decide), hsame hmode, hread (Or.inr hmode)]
  · unfold value
    rw [hrewritten.digit_ne hdigit hself, hrewritten.operand_ne hself, hrewritten.place_ne hdigit hself]
    by_cases hone : m.digit i = 1
    · rw [if_pos hone, if_pos hone]
    · have hmode := (hreadable i (Nat.le_refl i)).mode
      rw [if_neg hone, if_neg hone, hread (by omega)]

theorem Recodes.argument_eq (hapart : ∀ i a, m.ReadsFrom i a → a ≠ m.pc ∧ a ≠ m.pc + (1 + j))
    (hword : 0 ≤ m.word) {op : Operation} (hcode : m.opcode = op.code)
    (hreadable : ∀ i < op.roles.length, m.Readable i) {i : Nat} (hi : i < op.roles.length) :
    m'.argument op i = m.argument op i := by
  obtain ⟨digit, operand, hdigit, hrewritten⟩ := h.rewritten
  have hword' := hrewritten.word_nonneg hdigit hword
  rcases op.roles_getD hi with ⟨hrole, hinput⟩ | ⟨hrole, hwrites⟩
  · rw [argument_input hword hrole, argument_input hword' hrole]
    refine h.value_eq hapart ?_ (by rwa [hcode]) fun k hk => hreadable k (by omega)
    rw [hcode, Operation.arity_code]
    exact hi
  · rw [argument_output hword hrole, argument_output hword' hrole]
    exact h.place_of_writes (by rwa [hcode])

/-- **Decoding gives the same effect on both machines, or fails on both** at the same parameter
and with the same kind of fault. -/
theorem Recodes.decodes_alike (hapart : ∀ i a, m.ReadsFrom i a → a ≠ m.pc ∧ a ≠ m.pc + (1 + j))
    (hword : 0 ≤ m.word) (hj : j < arity m.opcode) :
    (∃ fault fault' n, m.decode = (.error fault, n) ∧ m'.decode = (.error fault', n) ∧
      fault'.kind = fault.kind) ∨
      ∃ (op : Operation) (n : Nat), m.opcode = op.code ∧ m.decode = (.ok (op.effect (m.argument op)), n) ∧
        m'.decode = (.ok (op.effect (m.argument op)), n) := by
  obtain ⟨digit, operand, hdigit, hrewritten⟩ := h.rewritten
  obtain ⟨op, hcode⟩ := (Operation.known_iff m.opcode).mp (mem_codes_of_lt_arity hj)
  have hword' := hrewritten.word_nonneg hdigit hword
  have hcode' : m'.opcode = op.code := hrewritten.opcode.trans hcode
  rcases readable_or_first_unreadable hword hcode with hall | ⟨i, hi, hbefore, hnot⟩
  · have hdecode' := decode_of_readable hword' hcode' fun i hi => (h.readable_iff i).mpr (hall i hi)
    rw [Operation.effect_congr fun i hi => h.argument_eq hapart hword hcode hall hi] at hdecode'
    exact Or.inr ⟨op, _, hcode, decode_of_readable hword hcode hall, hdecode'⟩
  · have hne : i ≠ j := fun hi => hnot (hi ▸ h.readable_self.1)
    have hmodeDigit : m'.fetched.modeDigit i = m.fetched.modeDigit i := by
      have := hrewritten.digit_ne hdigit hne
      rw [digit_eq hword, digit_eq hword'] at this
      exact_mod_cast this
    have hlong := hrewritten.long_iff hdigit hword (le_trans (Nat.add_le_add_right (Nat.le_of_lt hj) 3)
      (arity_add_le m.opcode))
    have hoperand : ((m'.advance 1).advance i).memory.get ((m'.advance 1).advance i).pc =
        ((m.advance 1).advance i).memory.get ((m.advance 1).advance i).pc := by
      have := hrewritten.operand_ne hne
      simpa [Machine.operand, Int.add_assoc] using this
    refine Or.inl ⟨_, _, _, decode_of_first_unreadable hword hcode hi hbefore hnot,
      decode_of_first_unreadable hword' hcode' hi (fun k hk => (h.readable_iff k).mpr (hbefore k hk))
        (fun hread => hnot ((h.readable_iff i).mp hread)), ?_⟩
    refine refusal_kind_congr hmodeDigit hlong ?_ (fun d => ?_) _
    · simp [hrewritten.pc]
    · unfold referent
      rw [hoperand]
      simp [hrewritten.relativeBase]

end

/-! ### The same step -/

/-- The same outcome, or faults of the same kind. -/
inductive SameOutcome : Except Fault (Option Stop) → Except Fault (Option Stop) → Prop
  | same (outcome : Except Fault (Option Stop)) : SameOutcome outcome outcome
  | fails {fault fault' : Fault} (hkind : fault'.kind = fault.kind) :
      SameOutcome (.error fault) (.error fault')

/-- The answers and machines after an instruction on either machine: the same outcome, and
machines that differ in nothing but their memories, which agree at these addresses. -/
structure Matches (A : Int → Prop) (x x' : Except Fault (Option Stop) × Machine) : Prop where
  outcome : SameOutcome x.1 x'.1
  rest : x'.2 = { x.2 with memory := x'.2.memory }
  agree : ∀ a, A a → x'.2.memory.get a = x.2.memory.get a

/-- An unbounded machine applies an effect without a look at its memory. -/
theorem apply_matches {A : Int → Prop} (hrest : m' = { m with memory := m'.memory })
    (hunbounded : m.bounded = false) (hagree : ∀ a, A a → m'.memory.get a = m.memory.get a)
    (e : Effect) :
    Matches (fun a => A a ∨ ∃ value, e = .store a value) (m.apply e) (m'.apply e) := by
  have hkept : ∀ {e : Effect}, (∀ a value, e ≠ .store a value) →
      ∀ a, (A a ∨ ∃ value, e = .store a value) → m'.memory.get a = m.memory.get a := by
    intro e hstore a ha
    rcases ha with ha | ⟨value, he⟩
    · exact hagree a ha
    · exact absurd he (hstore a value)
  cases e with
  | store a value =>
      refine ⟨.same _, by rw [hrest]; rfl, fun b hb => ?_⟩
      show (m'.memory.put a value).get b = (m.memory.put a value).get b
      rw [Memory.get_put, Memory.get_put]
      by_cases hba : b = a
      · rw [if_pos hba, if_pos hba]
      · rw [if_neg hba, if_neg hba]
        refine hagree b (hb.resolve_right fun hstore => ?_)
        obtain ⟨value', he⟩ := hstore
        exact hba (Effect.store.inj he).1.symm
  | jump target =>
      have htarget : m'.jumpTarget target = m.jumpTarget target := by
        have hbounded' : m'.bounded = false := by rw [hrest]; exact hunbounded
        unfold jumpTarget
        simp only [hunbounded, hbounded', Bool.false_eq_true, false_and, if_false]
      simp only [apply, htarget]
      cases m.jumpTarget target with
      | error fault => exact ⟨.same _, hrest, hkept (by simp)⟩
      | ok a => exact ⟨.same _, by rw [hrest], hkept (by simp)⟩
  | shift offset => exact ⟨.same _, by rw [hrest]; rfl, hkept (by simp)⟩
  | _ => exact ⟨.same _, hrest, hkept (by simp)⟩

theorem Matches.mono {A B : Int → Prop} {x x' : Except Fault (Option Stop) × Machine}
    (h : Matches A x x') (hBA : ∀ a, B a → A a) : Matches B x x' :=
  ⟨h.outcome, h.rest, fun a ha => h.agree a (hBA a ha)⟩

/-- Four operations store a value at their third parameter. -/
theorem effect_of_stores (hword : 0 ≤ m.word) {op : Operation} (hcode : m.opcode = op.code)
    (hstores : m.opcode ∈ [1, 2, 7, 8]) :
    ∃ value, op.effect (m.argument op) = .store (m.place 2) value := by
  cases op with
  | compute f =>
      have hplace : m.argument (.compute f) 2 = m.place 2 := argument_output hword rfl
      exact ⟨_, by rw [Operation.effect, hplace]⟩
  | jump onNonzero => cases onNonzero <;> simp [hcode, Operation.code] at hstores
  | _ => simp [hcode, Operation.code] at hstores

/-- The instruction at the program counter has written at this address. -/
structure StoredAt (m : Machine) (outcome : Except Fault (Option Stop)) (a : Int) : Prop where
  done : outcome = .ok none
  stores : m.opcode ∈ [1, 2, 7, 8]
  place : m.place 2 = a

/-- Carrying out the instruction leaves memories that agree outside the changed cells, and inside
them where it has written. -/
theorem exec_matches {j : Nat} (h : m.Recodes m' j) (hunbounded : m.bounded = false)
    (hword : 0 ≤ m.word) (hj : j < arity m.opcode)
    (hapart : ∀ i a, m.ReadsFrom i a → a ≠ m.pc ∧ a ≠ m.pc + (1 + j)) :
    Matches (fun a => (a ≠ m.pc ∧ a ≠ m.pc + (1 + j)) ∨ m.StoredAt m.exec.1 a) m.exec m'.exec := by
  obtain ⟨digit, operand, -, hrewritten⟩ := h.rewritten
  have hothers : ∀ a, a ≠ m.pc ∧ a ≠ m.pc + (1 + j) → m'.memory.get a = m.memory.get a :=
    fun a ha => hrewritten.others a ha.1 ha.2
  have hadvance : ∀ n : Nat, m'.advance n = { m.advance n with memory := (m'.advance n).memory } := by
    intro n
    rw [hrewritten.rest]
    rfl
  rw [exec_eq m']
  rcases h.decodes_alike hapart hword hj with ⟨fault, fault', n, hd, hd', hkind⟩ | ⟨op, n, hcode, hd, hd'⟩
  · have hexec : m.exec = (.error fault, m.advance n) := by rw [exec_eq, hd]
    rw [hd', hexec]
    refine ⟨.fails hkind, hadvance n, fun a ha => ?_⟩
    rcases ha with ha | hstored
    · exact hothers a ha
    · exact absurd hstored.done (by simp)
  · have hexec : m.exec = (m.advance n).apply (op.effect (m.argument op)) := by rw [exec_eq, hd]
    rw [hd', hexec]
    refine (apply_matches (hadvance n) hunbounded hothers _).mono fun a ha => ?_
    refine ha.imp_right fun hstored => ?_
    rw [← hstored.place]
    exact effect_of_stores hword hcode hstored.stores

/--
**Writing a parameter in another mode does not change what its instruction does.**  An input
in position mode is made to hold its value, or a parameter in relative mode its address, and no
input is read from the word or from the operand that this changes.  Then a step has the same
outcome or fails with the same kind of fault, leaves program counter and relative base the
same, and leaves memories that agree everywhere but in the two cells, and there too if the
instruction wrote to them.
-/
theorem step_of_recoded {j : Nat} (h : m.Recodes m' j) (hunbounded : m.bounded = false)
    (hword : 0 ≤ m.word) (hj : j < arity m.opcode)
    (hapart : ∀ i a, m.ReadsFrom i a → a ≠ m.pc ∧ a ≠ m.pc + (1 + j)) :
    Matches (fun a => (a ≠ m.pc ∧ a ≠ m.pc + (1 + j)) ∨ m.StoredAt m.step.1 a) m.step m'.step := by
  obtain ⟨digit, operand, -, hrewritten⟩ := h.rewritten
  have hstarted : m'.started = m.started := by rw [hrewritten.rest]
  have hexec := exec_matches h hunbounded hword hj hapart
  unfold step
  rw [hstarted]
  by_cases hs : m.started = true
  · rw [if_pos hs, if_pos hs]
    refine ⟨.same _, hrewritten.rest, fun a ha => ?_⟩
    rcases ha with ha | hstored
    · exact hrewritten.others a ha.1 ha.2
    · exact absurd hstored.done (by simp [Fault.raise])
  · rw [if_neg hs, if_neg hs]
    generalize m.exec = x, m'.exec = x' at hexec
    obtain ⟨answer, last⟩ := x
    obtain ⟨answer', last'⟩ := x'
    obtain ⟨houtcome, hrest, hagree⟩ := hexec
    simp only at houtcome hrest hagree
    cases houtcome with
    | fails hkind => exact ⟨.fails hkind, hrest, hagree⟩
    | same outcome =>
        rcases answer with fault | _ | stop
        · exact ⟨.same _, hrest, hagree⟩
        · exact ⟨.same _, hrest, hagree⟩
        · exact ⟨.same _, by rw [hrest], hagree⟩

/-- An addition whose first operand is counted from the relative base, and that overwrites this
operand with its sum: with the address in its place, it leaves the same sum there. -/
theorem sum_over_recoded_operand :
    let m : Machine := { memory := .ofValues [1201, 3, 4, 1, 99, 7], relativeBase := 2 }
    let m' : Machine := { m with memory := (m.memory.put 0 1001).put 1 5 }
    m.Recodes m' 0 ∧ m.bounded = false ∧ 0 ≤ m.word ∧ 0 < arity m.opcode ∧
      (∀ i a, m.ReadsFrom i a → a ≠ m.pc ∧ a ≠ m.pc + (1 + (0 : Nat))) ∧
      m.step.1 = .ok none ∧ m.step.2.memory.get 1 = 11 ∧
      Matches (fun a => (a ≠ m.pc ∧ a ≠ m.pc + (1 + (0 : Nat))) ∨ m.StoredAt m.step.1 a) m.step m'.step ∧
      m'.step.2.memory.get 1 = 11 := by
  intro m m'
  have hothers : ∀ a, a ≠ m.pc → a ≠ m.pc + (1 + (0 : Nat)) → m'.memory.get a = m.memory.get a := by
    intro a hword hoperand
    rw [Memory.get_put, if_neg (by simpa [m] using hoperand), Memory.get_put,
      if_neg (by simpa [m] using hword)]
  have hrecodes : m.Recodes m' 0 := .position (by decide) (by decide) ⟨rfl, by decide, by decide, hothers⟩
  have hapart : ∀ i a, m.ReadsFrom i a → a ≠ m.pc ∧ a ≠ m.pc + (1 + (0 : Nat)) := by
    intro i a h
    have hplace := h.place
    have hi : i < 3 := h.param
    obtain rfl | rfl | rfl : i = 0 ∨ i = 1 ∨ i = 2 := by omega
    · rw [← hplace]
      decide
    · exact absurd h.mode (by decide)
    · exact absurd (show Writes m.opcode 2 from Or.inl ⟨by decide, rfl⟩) h.input
  have hmatches := step_of_recoded hrecodes rfl (by decide) (by decide) hapart
  have hsum : m.step.2.memory.get 1 = 11 := by decide
  have hdone : m.step.1 = .ok none := by decide
  have hstored : m.StoredAt m.step.1 1 := ⟨hdone, by decide, by decide⟩
  exact ⟨hrecodes, rfl, by decide, by decide, hapart, hdone, hsum, hmatches,
    (hmatches.agree 1 (Or.inr hstored)).trans hsum⟩

end Machine

end Advent.Intcode
