/-
What numerals denote.

A run of digits has the value that its places give it, and a literal is such a run with or
without a sign.  Every integer is written as a literal of its own value, in as few digits as
it has, so what is written is read back unless it has too many.
-/
import Mathlib.Algebra.Group.Nat.Defs
import Mathlib.Data.List.TakeWhile
import Advent.Numeral
import Advent.Proofs.Text.Cut

namespace Advent.Numeral

/-! ### Runs of digits -/

/-- The value of a run of digits: each counts as many times as its place says, the last place
once and every other ten times as often as the next. -/
def placeValue : List Char → Nat
  | [] => 0
  | c :: rest => (c.toNat - '0'.toNat) * 10 ^ rest.length + placeValue rest

theorem ofDigitChars_eq_placeValue (digits : List Char) :
    Nat.ofDigitChars 10 digits 0 = placeValue digits := by
  induction digits with
  | nil => rfl
  | cons c rest ih =>
      rw [Nat.ofDigitChars_cons, Nat.ofDigitChars_eq_ofDigitChars_zero, ih, placeValue, Nat.mul_zero,
        Nat.zero_add, Nat.mul_comm]

/-- The digits of a number have that number for their value. -/
theorem placeValue_toDigits (n : Nat) : placeValue (Nat.toDigits 10 n) = n := by
  rw [← ofDigitChars_eq_placeValue, Nat.ofDigitChars_ten_toDigits]

theorem placeValue_lt {digits : List Char} (h : ∀ c ∈ digits, c.isDigit) :
    placeValue digits < 10 ^ digits.length := by
  induction digits with
  | nil => decide
  | cons c rest ih =>
      obtain ⟨-, hnine⟩ := Char.isDigit_iff_toNat.mp (h c List.mem_cons_self)
      have hrest := ih fun d hd => h d (List.mem_cons_of_mem c hd)
      have hfirst : c.toNat - '0'.toNat ≤ 9 := Nat.sub_le_sub_right hnine '0'.toNat
      calc placeValue (c :: rest)
          < (c.toNat - '0'.toNat) * 10 ^ rest.length + 10 ^ rest.length := Nat.add_lt_add_left hrest _
        _ ≤ 9 * 10 ^ rest.length + 10 ^ rest.length :=
            Nat.add_le_add_right (Nat.mul_le_mul_right _ hfirst) _
        _ = 10 ^ (c :: rest).length := by rw [List.length_cons, Nat.pow_succ]; omega

theorem isDigits_iff (s : List Char) : isDigits s = true ↔ s ≠ [] ∧ ∀ c ∈ s, c.isDigit := by
  simp [isDigits]

theorem ofDigits_eq_ok_iff {digits : List Char} {n : Nat} :
    ofDigits digits = .ok n ↔ digits.length ≤ maxDigits ∧ n = placeValue digits := by
  unfold ofDigits
  rw [ofDigitChars_eq_placeValue]
  split
  · rename_i hlong
    simp [Nat.not_le_of_lt hlong]
  · rename_i hshort
    simp [Nat.le_of_not_lt hshort, eq_comm]

/-- A run of digits is refused only for its length. -/
theorem ofDigits_eq_error_iff {digits : List Char} {defect : Defect} :
    ofDigits digits = .error defect ↔
      maxDigits < digits.length ∧ defect = .oversize digits.length := by
  unfold ofDigits
  split
  · rename_i hlong
    simp [hlong, eq_comm]
  · rename_i hshort
    simp [hshort]

/-- An integer can be written when it has few enough digits. -/
theorem fits_iff_length_toDigits (n : Int) :
    fits n = true ↔ (Nat.toDigits 10 n.natAbs).length ≤ maxDigits := by
  unfold fits bound
  rw [decide_eq_true_iff, Nat.length_toDigits_le_iff (by decide) (by decide), Nat.pow_eq]

theorem fits_of_natAbs_lt {n : Int} {k : Nat} (h : n.natAbs < 10 ^ k) (hk : k ≤ maxDigits) :
    fits n := by
  rw [fits_iff_length_toDigits]
  cases k with
  | zero =>
      rw [Nat.lt_one_iff.mp h]
      decide
  | succ k =>
      exact ((Nat.length_toDigits_le_iff (by decide) (Nat.succ_pos k)).mpr h).trans hk

/-! ### Literals -/

/-- A text of digits, or of a sign and digits after it, with the digits and the value. -/
inductive Literal : List Char → List Char → Int → Prop where
  | plain {digits : List Char} (hne : digits ≠ []) (hdigits : ∀ c ∈ digits, c.isDigit) :
      Literal digits digits (placeValue digits)
  | plus {digits : List Char} (hne : digits ≠ []) (hdigits : ∀ c ∈ digits, c.isDigit) :
      Literal ('+' :: digits) digits (placeValue digits)
  | minus {digits : List Char} (hne : digits ≠ []) (hdigits : ∀ c ∈ digits, c.isDigit) :
      Literal ('-' :: digits) digits (-placeValue digits)

variable {text digits : List Char} {n : Int}

theorem Literal.isDigit (h : Literal text digits n) : ∀ c ∈ digits, c.isDigit := by
  cases h <;> assumption

theorem takeSign_of_isDigit {c : Char} (hc : c.isDigit) (rest : List Char) :
    takeSign (c :: rest) = (false, c :: rest) := by
  unfold takeSign
  split
  · simp_all
  · simp_all
  · rfl

/-- A literal is its sign and its digits, and nothing else is one. -/
theorem literal_iff :
    Literal text digits n ↔
      (takeSign text).2 = digits ∧ isDigits digits = true ∧
        n = signed (takeSign text).1 (placeValue digits) := by
  rw [isDigits_iff]
  refine ⟨?_, ?_⟩
  · intro h
    cases h with
    | plain hne hdigits =>
        obtain ⟨c, rest, rfl⟩ := List.exists_cons_of_ne_nil hne
        rw [takeSign_of_isDigit (hdigits c List.mem_cons_self)]
        exact ⟨rfl, ⟨hne, hdigits⟩, rfl⟩
    | plus hne hdigits => exact ⟨rfl, ⟨hne, hdigits⟩, rfl⟩
    | minus hne hdigits => exact ⟨rfl, ⟨hne, hdigits⟩, rfl⟩
  · rintro ⟨hdigits, ⟨hne, hdigit⟩, rfl⟩
    unfold takeSign at hdigits ⊢
    split at hdigits <;> subst hdigits
    · exact .minus hne hdigit
    · exact .plus hne hdigit
    · exact .plain hne hdigit

/-! ### Writing

What is written is a sign, where one is needed, and the digits of the absolute value: a literal of
the integer, and the shortest there is.
-/

theorem toList_write (n : Int) :
    (write n).toList = (if n < 0 then ['-'] else []) ++ Nat.toDigits 10 n.natAbs := by
  cases n with
  | ofNat n =>
      show (Nat.repr n).toList = _
      simp
  | negSucc n =>
      show ("-" ++ Nat.repr (n + 1)).toList = _
      simp [Int.negSucc_lt_zero]

theorem toList_write_of_nonneg {n : Int} (hn : 0 ≤ n) :
    (write n).toList = Nat.toDigits 10 n.natAbs := by
  rw [toList_write, if_neg (Int.not_lt.mpr hn), List.nil_append]

theorem toList_write_ne_nil (n : Int) : (write n).toList ≠ [] := by
  rw [toList_write]
  exact List.append_ne_nil_of_right_ne_nil _ Nat.toDigits_ne_nil

theorem mem_write {n : Int} {c : Char} (h : c ∈ (write n).toList) : c = '-' ∨ c.isDigit := by
  rw [toList_write, List.mem_append] at h
  rcases h with hsign | hdigit
  · split at hsign
    · exact Or.inl (List.mem_singleton.mp hsign)
    · exact absurd hsign List.not_mem_nil
  · exact Or.inr (Nat.isDigit_of_mem_toDigits (by decide) (by decide) hdigit)

/-- **What is written is a literal of what was written.** -/
theorem literal_write (n : Int) : Literal (write n).toList (Nat.toDigits 10 n.natAbs) n := by
  have hne : Nat.toDigits 10 n.natAbs ≠ [] := Nat.toDigits_ne_nil
  have hdigits : ∀ c ∈ Nat.toDigits 10 n.natAbs, c.isDigit :=
    fun c hc => Nat.isDigit_of_mem_toDigits (by decide) (by decide) hc
  rw [toList_write]
  by_cases hneg : n < 0
  · have hminus := Literal.minus hne hdigits
    rw [placeValue_toDigits] at hminus
    rw [if_pos hneg]
    rwa [show n = -(n.natAbs : Int) by omega, Int.natAbs_neg, Int.natAbs_natCast]
  · have hplain := Literal.plain hne hdigits
    rw [placeValue_toDigits] at hplain
    rw [if_neg hneg]
    rwa [show n = (n.natAbs : Int) by omega, Int.natAbs_natCast]

/-! ### Reading

Reading allows margins, digits of other scripts and underscores between digits as well.  A literal
has none of these, so it is read as what it is.
-/

/-- A literal consists of signs and digits. -/
theorem Literal.mem (h : Literal text digits n) {c : Char} (hc : c ∈ text) :
    c = '-' ∨ c = '+' ∨ c.isDigit := by
  cases h with
  | plain _ hdigits => exact Or.inr (Or.inr (hdigits c hc))
  | plus _ hdigits =>
      rcases List.mem_cons.mp hc with hsign | hc
      · exact Or.inr (Or.inl hsign)
      · exact Or.inr (Or.inr (hdigits c hc))
  | minus _ hdigits =>
      rcases List.mem_cons.mp hc with hsign | hc
      · exact Or.inl hsign
      · exact Or.inr (Or.inr (hdigits c hc))

theorem Literal.toNat_bounds (h : Literal text digits n) {c : Char} (hc : c ∈ text) :
    43 ≤ c.toNat ∧ c.toNat ≤ 57 := by
  rcases h.mem hc with rfl | rfl | hdigit
  · decide
  · decide
  · obtain ⟨hzero, hnine⟩ := Char.isDigit_iff_toNat.mp hdigit
    exact ⟨Nat.le_trans (by decide) hzero, hnine⟩

theorem toAscii_of_toNat_lt {c : Char} (h : c.toNat < 0x7F) : toAscii c = c := if_pos h

theorem isMargin_of_bounds {c : Char} (h : 43 ≤ c.toNat ∧ c.toNat ≤ 57) : isMargin c = false := by
  have hspace : c ≠ ' ' := by
    rintro rfl
    exact absurd h.1 (by decide)
  have hcontrol : ¬ c.toNat ≤ 0x0D := by omega
  simp [isMargin, hspace, hcontrol]

/-- A literal that has not too many digits is read as its value. -/
theorem read_of_literal {text : String} (h : Literal text.toList digits n)
    (hlength : digits.length ≤ maxDigits) : read text = .ok n := by
  obtain ⟨hrest, hdigits, hn⟩ := literal_iff.mp h
  rw [isDigits_iff] at hdigits
  have hascii : text.toList.map toAscii = text.toList := by
    refine (List.map_congr_left fun c hc => ?_).trans (List.map_id _)
    exact toAscii_of_toNat_lt (by have := h.toNat_bounds hc; omega)
  have hmargin : text.toList.dropWhile isMargin = text.toList := by
    rw [List.dropWhile_eq_self_iff]
    intro hpos
    simp [isMargin_of_bounds (h.toNat_bounds (List.getElem_mem hpos))]
  have hbody : ∀ c ∈ digits, isBody c := fun c hc => by simp [isBody, hdigits.2 c hc]
  have hgroups : digits.splitOn '_' = [digits] := by
    refine List.splitOn_eq_singleton ?_
    intro hunderscore
    exact absurd (hdigits.2 '_' hunderscore) (by decide)
  have hdigitsOk : ofDigits digits = .ok (placeValue digits) := ofDigits_eq_ok_iff.mpr ⟨hlength, rfl⟩
  have hall : digits.takeWhile isBody = digits := List.takeWhile_eq_self_iff.mpr hbody
  have htail : digits.dropWhile isBody = [] := List.dropWhile_eq_nil_iff.mpr hbody
  unfold read
  simp [hascii, hmargin, hrest, hall, htail, hgroups, hdigits.1, hdigitsOk, hn]

/-- **What is written is read back**, if it can be written at all. -/
theorem read_write {n : Int} (h : fits n) : read (write n) = .ok n :=
  read_of_literal (literal_write n) ((fits_iff_length_toDigits n).mp h)

theorem natAbs_signed (negative : Bool) (n : Nat) : (signed negative n).natAbs = n := by
  unfold signed
  split
  · exact Int.natAbs_neg n
  · exact Int.natAbs_natCast n

/-- What is read can be written. -/
theorem fits_of_read {text : String} {n : Int} (h : read text = .ok n) : fits n := by
  unfold read at h
  dsimp only at h
  generalize takeSign _ = parts at h
  split at h
  · cases h
  · split at h
    · cases h
    · rename_i value hvalue
      split at h
      · obtain ⟨hlength, rfl⟩ := ofDigits_eq_ok_iff.mp hvalue
        obtain rfl := Except.ok.inj h
        have hdigits : ∀ c ∈ ((parts.2.takeWhile isBody).splitOn '_').flatten, c.isDigit := by
          intro c hc
          obtain ⟨part, hpart, hc⟩ := List.mem_flatten.mp hc
          have hbody : isBody c := List.mem_takeWhile_imp ((Text.infix_of_mem_splitOn hpart).subset hc)
          have hunderscore : c ≠ '_' := fun h => Text.not_mem_of_mem_splitOn hpart (h ▸ hc)
          simpa [isBody, hunderscore] using hbody
        refine fits_of_natAbs_lt ?_ hlength
        rw [natAbs_signed]
        exact placeValue_lt hdigits
      · cases h

end Advent.Numeral
