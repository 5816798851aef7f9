/-
Words and their parts.

A word is a decimal numeral: two digits for its code and, from the hundreds on, one digit for the
mode of every parameter.  `encode` puts a code and modes at these places.  Reading the digits off
gives the parts back (`mode_encode`), and the places past the last mode hold zeros, which stand for
position mode.  The other way round, putting back the modes that were read off gives the word cut
off after them (`encode_of_modes`), so it gives the whole word when no digit is left.  A digit that
is no mode cannot be read off at all.
-/
import Advent.Proofs.Intcode.Reading

namespace Advent.Intcode

theorem Mode.digit_le_two (mode : Mode) : mode.digit ≤ 2 := by
  cases mode <;> decide

namespace Word

variable {w : Word} {code : Nat} {modes : List Mode}

/-! ### Putting a word together -/

theorem raw_encode (code : Nat) (modes : List Mode) :
    (encode code modes).raw = code + 100 * Nat.ofDigits 10 (modes.map Mode.digit) := by
  rw [Nat.ofDigits_eq_foldr, List.foldr_map]
  rfl

/-- The mode of parameter `i` stands two places above place `i`. -/
theorem raw_encode_eq_sum (code : Nat) (modes : List Mode) :
    (encode code modes).raw = code + (modes.mapIdx fun i mode => mode.digit * 10 ^ (i + 2)).sum := by
  rw [raw_encode, Nat.ofDigits_eq_sum_mapIdx, List.mapIdx_eq_zipIdx_map, List.mapIdx_eq_zipIdx_map,
    List.zipIdx_map, List.map_map, ← List.sum_map_mul_left]
  congr 3
  funext ⟨mode, i⟩
  show 100 * (mode.digit * 10 ^ i) = mode.digit * 10 ^ (i + 2)
  ring

/-- Codes have two digits, so the modes do not reach into the code. -/
theorem code_encode (hcode : code < 100) (modes : List Mode) : (encode code modes).code = code := by
  rw [Word.code, raw_encode, Nat.add_mul_mod_self_left, Nat.mod_eq_of_lt hcode]

theorem ofDigits_modes_digit (modes : List Mode) (i : Nat) :
    Nat.ofDigits 10 (modes.map Mode.digit) / 10 ^ i % 10 = (modes.getD i .position).digit := by
  induction modes generalizing i with
  | nil => simp [Mode.digit]
  | cons mode modes ih =>
      have hdigit := mode.digit_le_two
      rw [List.map_cons, Nat.ofDigits_cons]
      cases i with
      | zero =>
          rw [List.getD_cons_zero]
          omega
      | succ i =>
          rw [List.getD_cons_succ, ← ih i, pow_succ', ← Nat.div_div_eq_div_mul]
          congr 2
          omega

theorem modeDigit_eq_div_hundred (w : Word) (i : Nat) : w.modeDigit i = w.raw / 100 / 10 ^ i % 10 := by
  rw [modeDigit_natCast, Nat.div_div_eq_div_mul, pow_add, mul_comm]
  rfl

/-- Reading a mode off gives what was put there, and position mode past the last one. -/
theorem mode_encode (hcode : code < 100) (modes : List Mode) (i : Nat) :
    (encode code modes).mode i = .ok (modes.getD i .position) := by
  have hrest : (encode code modes).raw / 100 = Nat.ofDigits 10 (modes.map Mode.digit) := by
    rw [raw_encode]
    omega
  rw [Machine.mode_ok_iff, modeDigit_eq_div_hundred, hrest, ofDigits_modes_digit]

/-! ### Taking a word apart

Reading modes off stops short of the whole word unless every digit from the hundreds on is a mode
and there are no more digits than modes.
-/

/-- All digits from the hundreds on are modes. -/
def Regular (w : Word) : Prop := ∀ d ∈ (Nat.digits 10 w.raw).drop 2, d ≤ 2

/-- The digits of modes are those of the word from the hundreds on, followed by zeros. -/
theorem modeDigit_eq_getD (w : Word) (i : Nat) :
    w.modeDigit i = ((Nat.digits 10 w.raw).drop 2).getD i 0 := by
  rw [modeDigit_natCast, ← Nat.getD_digits _ _ (by decide), List.getD_eq_getElem?_getD,
    List.getD_eq_getElem?_getD, List.getElem?_drop, Nat.add_comm]

/-- Digits that are not written are zeros, so they are modes. -/
theorem regular_iff : w.Regular ↔ ∀ i : Nat, w.modeDigit i ≤ 2 := by
  simp only [modeDigit_eq_getD, Regular]
  refine ⟨fun h i => ?_, fun h d hd => ?_⟩
  · rw [List.getD_eq_getElem?_getD]
    cases hd : ((Nat.digits 10 w.raw).drop 2)[i]? with
    | none => exact Nat.zero_le 2
    | some d => exact h d (List.mem_of_getElem? hd)
  · obtain ⟨i, hi⟩ := List.mem_iff_getElem?.mp hd
    have hle := h i
    rwa [List.getD_eq_getElem?_getD, hi] at hle

theorem ofDigits_of_digits {m : Nat} (h : ∀ (i : Nat) (hi : i < modes.length), m / 10 ^ i % 10 = modes[i].digit) :
    Nat.ofDigits 10 (modes.map Mode.digit) = m % 10 ^ modes.length := by
  induction modes generalizing m with
  | nil => simp [Nat.mod_one]
  | cons mode modes ih =>
      have hfirst : m % 10 = mode.digit := by
        have hdigit := h 0 (by simp)
        rwa [pow_zero, Nat.div_one, List.getElem_cons_zero] at hdigit
      have hrest := ih (m := m / 10) fun i hi => by
        have hdigit := h (i + 1) (by simpa using hi)
        rwa [pow_succ', ← Nat.div_div_eq_div_mul, List.getElem_cons_succ] at hdigit
      rw [List.map_cons, Nat.ofDigits_cons, hrest, List.length_cons, pow_succ', Nat.mod_mul, hfirst]

/-- The modes that are read off a word make up the word as far as they go. -/
theorem encode_of_modes (h : ∀ (i : Nat) (hi : i < modes.length), w.mode i = .ok modes[i]) :
    encode w.code modes = ⟨w.raw % 10 ^ (modes.length + 2)⟩ := by
  have hdigits : Nat.ofDigits 10 (modes.map Mode.digit) = w.raw / 100 % 10 ^ modes.length := by
    refine ofDigits_of_digits fun i hi => ?_
    rw [← (Machine.mode_ok_iff w i modes[i]).mp (h i hi), modeDigit_eq_div_hundred]
  have hraw : (encode w.code modes).raw = w.raw % 10 ^ (modes.length + 2) := by
    rw [raw_encode, hdigits, Word.code, pow_add, mul_comm (10 ^ modes.length)]
    exact (Nat.mod_mul ..).symm
  rw [← hraw]

theorem modesFrom_eq_map_ok {i : Nat}
    (h : ∀ (j : Nat) (hj : j < modes.length), w.mode (i + j : Nat) = .ok modes[j]) :
    w.modesFrom i modes.length = modes.map .ok := by
  induction modes generalizing i with
  | nil => rfl
  | cons mode modes ih =>
      have hfirst : w.mode i = .ok mode := h 0 (by simp)
      rw [List.length_cons, modesFrom, hfirst, List.map_cons]
      refine congrArg _ (ih fun j hj => ?_)
      have hmode := h (j + 1) (by simpa using hj)
      rwa [← Nat.add_assoc, Nat.add_right_comm] at hmode

theorem Regular.exists_modes (h : w.Regular) (n : Nat) :
    ∃ modes : List Mode, modes.length = n ∧ ∀ (i : Nat) (hi : i < modes.length), w.mode i = .ok modes[i] := by
  choose mode hmode _ using fun i : Nat => mode_of_le (regular_iff.mp h i)
  refine ⟨(List.range n).map mode, by simp, fun i hi => ?_⟩
  rw [hmode i, List.getElem_map, List.getElem_range]

theorem exists_fault_of_not_regular (h : ¬ w.Regular) : ∃ i : Nat, w.mode i = .error (w.modeFault i) := by
  rw [regular_iff, not_forall] at h
  obtain ⟨i, hi⟩ := h
  exact ⟨i, mode_of_lt (Nat.lt_of_not_le hi)⟩

/-- **Taking a word apart undoes putting it together, and the other way round.**  A word that is put
together from a code of two digits and any number of modes has this code and these modes, and
position mode for all further parameters.  A word whose digits from the hundreds on are modes is
made up of its code and the modes of its first parameters, as soon as these use up its digits.  Any
other word has a parameter without a mode, and the fault names the word unless it is too long. -/
theorem decoding_inverts_encoding :
    (∀ code modes, (encode code modes).raw =
      code + (modes.mapIdx fun i mode => mode.digit * 10 ^ (i + 2)).sum) ∧
    (∀ w : Word, Word.ofInt w.raw = .ok w) ∧
    (∀ code modes, code < 100 → (encode code modes).code = code ∧
      (∀ (i : Nat) (hi : i < modes.length), (encode code modes).mode i = .ok modes[i]) ∧
      ∀ i : Nat, modes.length ≤ i → (encode code modes).mode i = .ok .position) ∧
    (∀ w : Word, (∀ d ∈ (Nat.digits 10 w.raw).drop 2, d ≤ 2) →
      ∀ n, (Nat.digits 10 w.raw).length ≤ n + 2 → ∃ modes : List Mode, modes.length = n ∧
        (∀ (i : Nat) (hi : i < modes.length), w.mode i = .ok modes[i]) ∧
        w.modesFrom 0 n = modes.map .ok ∧ encode w.code modes = w) ∧
    ∀ w : Word, (¬ ∀ d ∈ (Nat.digits 10 w.raw).drop 2, d ≤ 2) →
      ∃ (i : Nat) (fault : Fault), w.mode i = .error fault ∧
        ((Nat.digits 10 w.raw).length ≤ 4300 →
          fault = .unknownMode (w.modeDigit i) i w.raw ∧ fault.kind = .invalidMode) ∧
        (4300 < (Nat.digits 10 w.raw).length → fault = .unwritable ∧ fault.kind = .value) := by
  refine ⟨raw_encode_eq_sum, fun w => ?_, fun code modes hcode => ⟨code_encode hcode modes, ?_, ?_⟩,
    fun w hregular n hn => ?_, fun w hirregular => ?_⟩
  · rw [Word.ofInt_ok_iff]
    exact ⟨Int.natCast_nonneg _, rfl⟩
  · intro i hi
    rw [mode_encode hcode, List.getD_eq_getElem?_getD, List.getElem?_eq_getElem hi, Option.getD_some]
  · intro i hi
    rw [mode_encode hcode, List.getD_eq_getElem?_getD, List.getElem?_eq_none hi, Option.getD_none]
  · obtain ⟨modes, rfl, hmodes⟩ := Regular.exists_modes hregular n
    refine ⟨modes, rfl, hmodes, modesFrom_eq_map_ok fun j hj => ?_, ?_⟩
    · rw [Nat.zero_add]
      exact hmodes j hj
    · rw [encode_of_modes hmodes, Nat.mod_eq_of_lt ((Nat.digits_length_le_iff (by decide) _).mp hn)]
  · obtain ⟨i, hfault⟩ := exists_fault_of_not_regular hirregular
    refine ⟨i, _, hfault, fun hshort => ?_, fun hlong => ?_⟩
    · have hfits : ¬ w.Long := Nat.not_lt_of_le hshort
      rw [modeFault, if_neg hfits]
      exact ⟨rfl, rfl⟩
    · have hlong : w.Long := hlong
      rw [modeFault, if_pos hlong]
      exact ⟨rfl, rfl⟩

/-- A word with a mode of every kind, one whose modes are put back with two more than it has digits
for, and one with a digit that is no mode. -/
theorem mixed_modes_are_put_back :
    1 < 100 ∧ (encode 1 [.immediate, .position, .relative]).raw = 20101 ∧
      (encode 1 [.immediate, .position, .relative]).mode (2 : Nat) = .ok .relative ∧
      (encode 1 [.immediate, .position, .relative]).mode (3 : Nat) = .ok .position ∧
      (∃ modes : List Mode, modes.length = 4 ∧ encode 2 modes = ⟨1202⟩) ∧
      ∃ (i : Nat) (fault : Fault), Word.mode ⟨10302⟩ i = .error fault ∧ fault.kind = .invalidMode := by
  obtain ⟨hraw, -, hmodes, hback, hfault⟩ := decoding_inverts_encoding
  obtain ⟨-, hread, hrest⟩ := hmodes 1 [.immediate, .position, .relative] (by decide)
  obtain ⟨modes, hlength, -, -, hencode⟩ := hback ⟨1202⟩ (by norm_num) 4 (by norm_num)
  obtain ⟨i, fault, hmode, hshort, -⟩ := hfault ⟨10302⟩ (by norm_num)
  exact ⟨by decide, hraw 1 _, hread 2 (by decide), hrest 3 (by decide), ⟨modes, hlength, hencode⟩,
    i, fault, hmode, (hshort (by norm_num)).2⟩

end Word

end Advent.Intcode
