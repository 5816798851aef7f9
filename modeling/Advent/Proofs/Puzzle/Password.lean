/-
Which integers of a range are counted.

The rules speak of the digits of a number, and they are tried on the characters of its
numeral.  A sign is a character that comes before all digits and equals none, so it leaves
the order and the equal neighbours as they are, but it counts as one of six.  Hence the
numbers below zero that have five digits are judged by these, and what is counted is the
passwords of the range and, besides, its signed look-alikes.
-/
import Mathlib.Data.Char
import Mathlib.Data.Finset.Card
import Mathlib.Data.Nat.Digits.Lemmas
import Advent.Calendar
import Advent.Proofs.Numeral
import Advent.Proofs.Puzzle.Neighbours

namespace Advent.Puzzle.Password

/-! ### Digits -/

/-- The decimal digits of a number, the first one first. -/
def digits (n : Nat) : List Nat := (Nat.digits 10 n).reverse

theorem lt_of_mem_digits {n d : Nat} (h : d ∈ digits n) : d < 10 :=
  Nat.digits_lt_base (by decide) (List.mem_reverse.mp h)

theorem toDigits_eq_map_digits (n : Nat) (hn : n ≠ 0) :
    Nat.toDigits 10 n = (digits n).map Nat.digitChar := by
  induction n using Nat.strongRecOn with
  | ind n ih =>
      have hlast : digits n = digits (n / 10) ++ [n % 10] := by
        rw [digits, Nat.digits_def' (by decide) (Nat.pos_of_ne_zero hn), List.reverse_cons, digits]
      rw [hlast, List.map_append, List.map_singleton]
      by_cases hsmall : n < 10
      · rw [Nat.toDigits_of_lt_base hsmall, Nat.div_eq_of_lt hsmall, Nat.mod_eq_of_lt hsmall]
        rfl
      · rw [Nat.toDigits_of_base_le (by decide) (Nat.le_of_not_lt hsmall), ih (n / 10) (by omega) (by omega)]

theorem length_digits_le_iff (n k : Nat) : (digits n).length ≤ k ↔ n < 10 ^ k := by
  rw [digits, List.length_reverse, Nat.digits_length_le_iff (by decide)]

theorem length_digits_eq_iff (n k : Nat) :
    (digits n).length = k + 1 ↔ 10 ^ k ≤ n ∧ n < 10 ^ (k + 1) := by
  have hle := length_digits_le_iff n (k + 1)
  have hlt := length_digits_le_iff n k
  omega

theorem digitChar_le_iff {a b : Nat} (ha : a < 10) (hb : b < 10) :
    Nat.digitChar a ≤ Nat.digitChar b ↔ a ≤ b := by
  have hall : ∀ a b : Fin 10, Nat.digitChar a ≤ Nat.digitChar b ↔ a ≤ b := by decide
  exact hall ⟨a, ha⟩ ⟨b, hb⟩

theorem digitChar_injOn (n : Nat) : Set.InjOn Nat.digitChar {d | d ∈ digits n} := by
  intro a ha b hb hab
  have hle := digitChar_le_iff (lt_of_mem_digits ha) (lt_of_mem_digits hb)
  have hge := digitChar_le_iff (lt_of_mem_digits hb) (lt_of_mem_digits ha)
  rw [hab] at hle hge
  exact Nat.le_antisymm (hle.mp le_rfl) (hge.mp le_rfl)

/-! ### Numerals

A numeral is the digits and perhaps a sign before them.  The characters of digits are ordered like
digits and told apart like them, so the tests on characters are tests on digits.
-/

theorem toList_write_eq {n : Int} (hn : n ≠ 0) :
    (Numeral.write n).toList =
      (if n < 0 then ['-'] else []) ++ (digits n.natAbs).map Nat.digitChar := by
  rw [Numeral.toList_write, toDigits_eq_map_digits _ (by omega)]

theorem not_minus_mem_digitChars (n : Nat) : '-' ∉ (digits n).map Nat.digitChar := by
  intro h
  obtain ⟨d, hd, hchar⟩ := List.mem_map.mp h
  have hall : ∀ d : Fin 10, Nat.digitChar d ≠ '-' := by decide
  exact hall ⟨d, lt_of_mem_digits hd⟩ hchar

/-- A sign comes before all digits, so it does not disturb their order. -/
theorem isSorted_write_iff {n : Int} (hn : n ≠ 0) :
    isSorted (Numeral.write n).toList = true ↔ (digits n.natAbs).Pairwise (· ≤ ·) := by
  have hchars : ((digits n.natAbs).map Nat.digitChar).Pairwise (· ≤ ·) ↔
      (digits n.natAbs).Pairwise (· ≤ ·) := by
    rw [List.pairwise_map]
    exact List.Pairwise.iff_of_mem fun ha hb =>
      digitChar_le_iff (lt_of_mem_digits ha) (lt_of_mem_digits hb)
  rw [isSorted_iff, toList_write_eq hn, ← hchars]
  -- a sign in front is below every digit
  split
  · rw [List.singleton_append, List.pairwise_cons, and_iff_right]
    intro c hc
    obtain ⟨d, hd, rfl⟩ := List.mem_map.mp hc
    have hall : ∀ d : Fin 10, '-' ≤ Nat.digitChar d := by decide
    exact hall ⟨d, lt_of_mem_digits hd⟩
  · rfl

/-- A sign equals no digit, so it repeats nothing. -/
theorem repeats_write_iff {n : Int} (hn : n ≠ 0) :
    Repeats (Numeral.write n).toList ↔ Repeats (digits n.natAbs) := by
  rw [toList_write_eq hn, ← repeats_map (digitChar_injOn n.natAbs)]
  split
  · exact repeats_cons_of_not_mem (not_minus_mem_digitChars _)
  · rfl

/-- Nor is it part of a pair. -/
theorem pairs_write_iff {n : Int} (hn : n ≠ 0) :
    Pairs (Numeral.write n).toList ↔ Pairs (digits n.natAbs) := by
  rw [toList_write_eq hn, ← pairs_map (digitChar_injOn n.natAbs)]
  split
  · exact pairs_cons_of_not_mem (not_minus_mem_digitChars _)
  · rfl

/-- A numeral of six characters has six digits, or a sign and five. -/
theorem length_write_eq_iff {n : Int} (hn : n ≠ 0) :
    (Numeral.write n).toList.length = length ↔
      (100000 ≤ n ∧ n ≤ 999999) ∨ (-99999 ≤ n ∧ n ≤ -10000) := by
  -- six characters are six digits, or five after a sign
  have hsix := length_digits_eq_iff n.natAbs 5
  have hfive := length_digits_eq_iff n.natAbs 4
  rw [toList_write_eq hn, List.length_append, List.length_map, length]
  split
  · rw [List.length_singleton]
    omega
  · rw [List.length_nil]
    omega

/-! ### The rules -/

/-- The digits of a number never decrease, and two neighbours among them are equal. -/
def Obeys (n : Nat) : Prop := (digits n).Pairwise (· ≤ ·) ∧ Repeats (digits n)

instance : DecidablePred Obeys := fun _ => inferInstanceAs (Decidable (_ ∧ _))

/-- A number of six digits that obeys the weaker rule. -/
def IsPassword (n : Int) : Prop := (100000 ≤ n ∧ n ≤ 999999) ∧ Obeys n.natAbs

instance : DecidablePred IsPassword := fun _ => inferInstanceAs (Decidable (_ ∧ _))

/-- A password with a run of exactly two equal digits. -/
def IsStrict (n : Int) : Prop := IsPassword n ∧ Pairs (digits n.natAbs)

instance : DecidablePred IsStrict := fun _ => inferInstanceAs (Decidable (_ ∧ _))

/-- A number below zero of five digits that would obey the weaker rule if five were enough. -/
def IsLookalike (n : Int) : Prop := (-99999 ≤ n ∧ n ≤ -10000) ∧ Obeys n.natAbs

instance : DecidablePred IsLookalike := fun _ => inferInstanceAs (Decidable (_ ∧ _))

/-- A look-alike with a run of exactly two equal digits. -/
def IsStrictLookalike (n : Int) : Prop := IsLookalike n ∧ Pairs (digits n.natAbs)

instance : DecidablePred IsStrictLookalike := fun _ => inferInstanceAs (Decidable (_ ∧ _))

/-- The test of the weaker rule on an integer. -/
def passes (n : Int) : Bool := isValid (Numeral.write n).toList

/-- The test of both rules on an integer. -/
def passesBoth (n : Int) : Bool := passes n && hasPair (Numeral.write n).toList

/-- **What passes the test is a password or a look-alike of one.** -/
theorem passes_iff (n : Int) : passes n = true ↔ IsPassword n ∨ IsLookalike n := by
  -- zero has no digits, and yet its numeral has one
  by_cases hn : n = 0
  · subst hn
    decide
  · rw [passes, isValid, Bool.and_eq_true, Bool.and_eq_true, beq_iff_eq, length_write_eq_iff hn,
      isSorted_write_iff hn, hasRepetition_iff, repeats_write_iff hn, and_assoc]
    exact or_and_right

theorem passesBoth_iff (n : Int) : passesBoth n = true ↔ IsStrict n ∨ IsStrictLookalike n := by
  by_cases hn : n = 0
  · subst hn
    decide
  · rw [passesBoth, Bool.and_eq_true, passes_iff, hasPair_iff, pairs_write_iff hn]
    exact or_and_right

/-! ### Counting

The candidates are all the integers of the range, each once.  So what is counted is the number of
those with the property that the test stands for, however the range is gone through.
-/

/-- How many integers of a range have a property. -/
def tally (first last : Int) (p : Int → Prop) [DecidablePred p] : Nat :=
  ((Finset.range (last + 1 - first).toNat).filter fun i : Nat => p (first + i)).card

theorem tally_eq_card {first last : Int} {p : Int → Prop} [DecidablePred p] {found : Finset Int}
    (hfound : ∀ n, n ∈ found ↔ (first ≤ n ∧ n ≤ last) ∧ p n) : tally first last p = found.card := by
  refine Finset.card_nbij (fun i : Nat => first + i) ?_ ?_ ?_
  · intro i hi
    obtain ⟨hlt, hp⟩ := Finset.mem_filter.mp hi
    rw [Finset.mem_range] at hlt
    exact (hfound (first + i)).mpr ⟨by omega, hp⟩
  · intro i _ j _ hij
    simpa using hij
  · intro n hn
    obtain ⟨hrange, hp⟩ := (hfound n).mp hn
    have hi : first + ((n - first).toNat : Int) = n := by omega
    refine ⟨(n - first).toNat, ?_, hi⟩
    rw [Finset.mem_coe, Finset.mem_filter, Finset.mem_range]
    exact ⟨by omega, hi.symm ▸ hp⟩

theorem tally_or {first last : Int} {p q : Int → Prop} [DecidablePred p] [DecidablePred q]
    (h : ∀ n, p n → ¬ q n) :
    tally first last (fun n => p n ∨ q n) = tally first last p + tally first last q := by
  rw [tally, Finset.filter_or, Finset.card_union_of_disjoint, tally, tally]
  exact Finset.disjoint_filter.mpr fun i _ => h (first + i)

theorem tally_eq_zero_iff {first last : Int} {p : Int → Prop} [DecidablePred p] :
    tally first last p = 0 ↔ ∀ n, first ≤ n → n ≤ last → ¬ p n := by
  rw [tally, Finset.card_eq_zero, Finset.filter_eq_empty_iff]
  constructor
  · intro h n hfirst hlast
    have hi : first + ((n - first).toNat : Int) = n := by omega
    exact hi ▸ h (Finset.mem_range.mpr (by omega))
  · intro h i hi
    rw [Finset.mem_range] at hi
    exact h _ (by omega) (by omega)

theorem tally_mono {first last : Int} {p q : Int → Prop} [DecidablePred p] [DecidablePred q]
    (h : ∀ n, p n → q n) : tally first last p ≤ tally first last q :=
  Finset.card_le_card (Finset.monotone_filter_right _ fun i _ => h (first + i))

theorem mem_candidates {first last n : Int} : n ∈ candidates first last ↔ first ≤ n ∧ n ≤ last := by
  rw [candidates, List.mem_map]
  constructor
  · rintro ⟨i, hi, rfl⟩
    rw [List.mem_range] at hi
    omega
  · intro h
    exact ⟨(n - first).toNat, by rw [List.mem_range]; omega, by omega⟩

theorem nodup_candidates (first last : Int) : (candidates first last).Nodup := by
  refine List.nodup_range.map ?_
  intro i j hij
  simpa using hij

/-- Counting the candidates that pass a test counts those with its property. -/
theorem countP_candidates {first last : Int} {test : Int → Bool} {p : Int → Prop} [DecidablePred p]
    (htest : ∀ n, test n = true ↔ p n) : (candidates first last).countP test = tally first last p := by
  rw [List.countP_eq_length_filter, eq_comm,
    ← List.toFinset_card_of_nodup ((nodup_candidates first last).filter _)]
  refine tally_eq_card fun n => ?_
  rw [List.mem_toFinset, List.mem_filter, mem_candidates, htest]

/-- Numbers with more than six digits, or more than five below zero, are never counted: a range
may be cut down to what is left. -/
theorem countP_candidates_clipped (first last : Int) :
    (candidates first last).countP passes =
      (candidates (max first (-99999)) (min last 999999)).countP passes := by
  rw [countP_candidates passes_iff, eq_comm, List.countP_eq_length_filter,
    ← List.toFinset_card_of_nodup ((nodup_candidates _ _).filter _), eq_comm]
  refine tally_eq_card fun n => ?_
  rw [List.mem_toFinset, List.mem_filter, mem_candidates, passes_iff]
  -- whatever passes the test has six characters, and no number outside these bounds has
  have hbounds : IsPassword n ∨ IsLookalike n → -99999 ≤ n ∧ n ≤ 999999 := by
    rintro (⟨hn, -⟩ | ⟨hn, -⟩) <;> omega
  refine and_congr_left fun hpasses => ?_
  have := hbounds hpasses
  omega

/-- What lies between two integers that can be written can be written. -/
theorem fits_of_mem_candidates {first last n : Int} (hfirst : Numeral.fits first)
    (hlast : Numeral.fits last) (hn : n ∈ candidates first last) : Numeral.fits n := by
  rw [mem_candidates] at hn
  simp only [Numeral.fits, decide_eq_true_eq] at hfirst hlast ⊢
  omega

theorem add_eq {counts : Counts} {n : Int} (h : Numeral.fits n) :
    counts.add n = .ok ⟨counts.valid + [n].countP passes, counts.strict + [n].countP passesBoth⟩ := by
  unfold Counts.add
  by_cases hvalid : isValid (Numeral.write n).toList <;>
    by_cases hpair : hasPair (Numeral.write n).toList <;>
    simp [h, passes, passesBoth, hvalid, hpair]

theorem foldlM_add_eq {ns : List Int} (h : ∀ n ∈ ns, Numeral.fits n) (counts : Counts) :
    ns.foldlM Counts.add counts =
      .ok ⟨counts.valid + ns.countP passes, counts.strict + ns.countP passesBoth⟩ := by
  induction ns generalizing counts with
  | nil => rfl
  | cons n ns ih =>
      have hsplit : ∀ test, (n :: ns).countP test = [n].countP test + ns.countP test := fun test => by
        rw [← List.countP_append, List.singleton_append]
      rw [List.foldlM_cons, add_eq (h n List.mem_cons_self)]
      show ns.foldlM Counts.add _ = _
      rw [ih fun m hm => h m (List.mem_cons_of_mem n hm), hsplit, hsplit, ← Nat.add_assoc,
        ← Nat.add_assoc]

/-- **The counts are those of passwords and their look-alikes.** -/
theorem count_candidates {first last : Int} (hfirst : Numeral.fits first) (hlast : Numeral.fits last) :
    count (candidates first last) =
      .ok ⟨tally first last IsPassword + tally first last IsLookalike,
        tally first last IsStrict + tally first last IsStrictLookalike⟩ := by
  have hvalid : (candidates first last).countP passes =
      tally first last IsPassword + tally first last IsLookalike := by
    rw [countP_candidates passes_iff, tally_or]
    rintro n ⟨hpassword, -⟩ ⟨hlookalike, -⟩
    omega
  have hstrict : (candidates first last).countP passesBoth =
      tally first last IsStrict + tally first last IsStrictLookalike := by
    rw [countP_candidates passesBoth_iff, tally_or]
    rintro n ⟨⟨hpassword, -⟩, -⟩ ⟨⟨hlookalike, -⟩, -⟩
    omega
  rw [count, foldlM_add_eq fun n => fits_of_mem_candidates hfirst hlast, hvalid, hstrict, Nat.zero_add,
    Nat.zero_add]

/-- A range that was written is read back, so its candidates are counted. -/
theorem solve_write {first last : Int} (hfirst : Numeral.fits first) (hlast : Numeral.fits last) :
    solve (Numeral.write first) (Numeral.write last) = count (candidates first last) := by
  rw [solve, Numeral.read_write hfirst, Numeral.read_write hlast]

open Intcode (Trial)

theorem ofExcept_ofNumbers_inj {p q : Int × Int} :
    Trial.ofExcept (.ok (Answers.ofNumbers p)) = Trial.ofExcept (.ok (Answers.ofNumbers q)) ↔ p = q := by
  constructor
  · intro h
    have hanswers := Except.ok.inj (Intcode.Report.mk.inj (Option.some.inj h)).2
    simpa [Answers.ofNumbers, Prod.ext_iff] using hanswers
  · rintro rfl
    rfl

theorem day_eq_of_count {first last : String} {counts : Counts} (h : solve first last = .ok counts)
    (steps : Nat) (s : Settings) (read : Reader) :
    Day.solve steps s read [first, last] .password =
      Trial.ofExcept (.ok (.ofNumbers (counts.valid, counts.strict))) := by
  simp only [Day.solve, List.getD_cons_zero, List.getD_cons_succ, h]
  rfl

/-- **The puzzle counts the passwords of its range and the look-alikes below zero.**  Its answers
are the numbers of passwords and of strict ones exactly when no look-alike is in the range. -/
theorem solve_counts {first last : Int} (hfirst : Numeral.fits first) (hlast : Numeral.fits last)
    (steps : Nat) (s : Settings) (read : Reader) :
    Day.solve steps s read [Numeral.write first, Numeral.write last] .password =
        Trial.ofExcept (.ok (.ofNumbers
          (↑(tally first last IsPassword + tally first last IsLookalike),
            ↑(tally first last IsStrict + tally first last IsStrictLookalike)))) ∧
      (Day.solve steps s read [Numeral.write first, Numeral.write last] .password =
          Trial.ofExcept (.ok (.ofNumbers (tally first last IsPassword, tally first last IsStrict))) ↔
        ∀ n, first ≤ n → n ≤ last → ¬ IsLookalike n) := by
  have hcounts := (solve_write hfirst hlast).trans (count_candidates hfirst hlast)
  have hle : tally first last IsStrictLookalike ≤ tally first last IsLookalike :=
    tally_mono fun n => And.left
  refine ⟨day_eq_of_count hcounts steps s read, ?_⟩
  -- without look-alikes there are no strict ones, so the first answers decide
  rw [day_eq_of_count hcounts, ofExcept_ofNumbers_inj, ← tally_eq_zero_iff, Prod.mk.injEq]
  dsimp only
  omega

/-- Two passwords, of which one has its equal digits in a run of four only. -/
theorem run_of_four_is_no_pair :
    (Numeral.fits 111122 ∧ Numeral.fits 111123) ∧
      Day.solve 0 {} (Directory.mk [] []).read [Numeral.write 111122, Numeral.write 111123] .password =
        Trial.ofExcept (.ok (.ofNumbers (2, 1))) := by
  have hfits : Numeral.fits 111122 ∧ Numeral.fits 111123 := by decide +kernel
  have hnone : ∀ n : Int, 111122 ≤ n → n ≤ 111123 → ¬ IsLookalike n := fun n hn _ h => by
    have := h.1
    omega
  have hpasswords : tally 111122 111123 IsPassword = 2 := by decide +kernel
  have hstrict : tally 111122 111123 IsStrict = 1 := by decide +kernel
  have hcounts := (solve_counts hfits.1 hfits.2 0 {} (Directory.mk [] []).read).2.mpr hnone
  rw [hpasswords, hstrict] at hcounts
  exact ⟨hfits, hcounts⟩

/-- A number with a sign is no password, and yet it is counted. -/
theorem lookalike_is_counted :
    Day.solve 0 {} (Directory.mk [] []).read [Numeral.write (-11223), Numeral.write (-11223)] .password =
        Trial.ofExcept (.ok (.ofNumbers (1, 1))) ∧
      tally (-11223) (-11223) IsPassword = 0 ∧ tally (-11223) (-11223) IsStrict = 0 := by
  have hcounts : solve (Numeral.write (-11223)) (Numeral.write (-11223)) = .ok ⟨1, 1⟩ := by
    decide +kernel
  exact ⟨day_eq_of_count hcounts 0 {} (Directory.mk [] []).read, by decide +kernel, by decide +kernel⟩

end Advent.Puzzle.Password
