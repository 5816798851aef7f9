/-
What neighbours tell of a whole list.

In a list that never descends the occurrences of an item stand together, with smaller items before
them and greater ones behind (`eq_append_replicate`).  So two equal neighbours are an item that
occurs twice or more, and a run of exactly two is an item that occurs exactly twice.  Without the
order neither holds, since an item may come up again later.
-/
import Mathlib.Order.Lattice
import Advent.Proofs.Puzzle.Neighbours

namespace Advent.Puzzle.Password

/-! ### Places -/

section Places

variable {α : Type} {items : List α} {x : α} {i : Nat}

theorem eq_double_of_places (hx : items[i]? = some x) (hnext : items[i + 1]? = some x) :
    items = items.take i ++ x :: x :: items.drop (i + 2) := by
  obtain ⟨hi, hx⟩ := List.getElem?_eq_some_iff.mp hx
  obtain ⟨hi', hnext⟩ := List.getElem?_eq_some_iff.mp hnext
  calc items = items.take i ++ items.drop i := (List.take_append_drop i items).symm
    _ = items.take i ++ x :: x :: items.drop (i + 2) := by
        rw [List.drop_eq_getElem_cons hi, List.drop_eq_getElem_cons hi', hx, hnext]

theorem repeats_iff_places : Repeats items ↔ ∃ i x, items[i]? = some x ∧ items[i + 1]? = some x := by
  constructor
  · rintro ⟨before, x, after, rfl⟩
    exact ⟨before.length, x, by simp, by simp⟩
  · rintro ⟨i, x, hx, hnext⟩
    exact ⟨_, x, _, eq_double_of_places hx hnext⟩

/-- A pair is two equal items at neighbouring places, with others before and behind. -/
theorem pairs_iff_places :
    Pairs items ↔ ∃ i x, items[i]? = some x ∧ items[i + 1]? = some x ∧
      (∀ j, j + 1 = i → items[j]? ≠ some x) ∧ items[i + 2]? ≠ some x := by
  constructor
  · rintro ⟨before, x, after, rfl, hbefore, hafter⟩
    refine ⟨before.length, x, by simp, by simp, fun j hj => ?_, ?_⟩
    · rwa [List.getElem?_append_left (by omega), show j = before.length - 1 by omega,
        ← List.getLast?_eq_getElem?]
    · rw [List.getElem?_append_right (by omega)]
      simpa [List.head?_eq_getElem?] using hafter
  · rintro ⟨i, x, hx, hnext, hbefore, hafter⟩
    refine ⟨_, x, _, eq_double_of_places hx hnext, ?_, ?_⟩
    · obtain ⟨hi, -⟩ := List.getElem?_eq_some_iff.mp hx
      cases i with
      | zero => simp
      | succ j =>
          rw [List.getLast?_take, if_neg (Nat.succ_ne_zero j), Nat.add_sub_cancel,
            List.getElem?_eq_getElem (by omega), Option.some_or, ← List.getElem?_eq_getElem]
          exact hbefore j rfl
    · rwa [List.head?_drop]

end Places

/-! ### Occurrences

Order brings equal items together.  Behind an item there are equal ones first and greater ones then,
so an item that is not right behind an equal one does not come up again.
-/

section Occurrences

variable {α : Type} {items : List α} {x : α}

/-- An item that is not right behind an equal one is nowhere behind it, in whichever direction the
list is ordered. -/
theorem not_mem_behind {r : α → α → Prop} (hr : ∀ {a b}, r a b → r b a → a = b) {after : List α}
    (h : (x :: after).Pairwise r) (hfirst : after.head? ≠ some x) : x ∉ after := by
  intro hx
  obtain ⟨first, tail, rfl⟩ := List.exists_cons_of_ne_nil (List.ne_nil_of_mem hx)
  obtain ⟨hall, hafter⟩ := List.pairwise_cons.mp h
  have hne : first ≠ x := by simpa using hfirst
  rcases List.mem_cons.mp hx with hx | hx
  · exact hne hx.symm
  · exact hne (hr ((List.pairwise_cons.mp hafter).1 x hx) (hall first List.mem_cons_self))

variable [LinearOrder α]

/-- In a list that never descends, the occurrences of an item stand between what is smaller and what
is greater. -/
theorem eq_append_replicate (h : items.Pairwise (· ≤ ·)) (x : α) :
    items = items.filter (· < x) ++ (List.replicate (items.count x) x ++ items.filter (x < ·)) := by
  induction items with
  | nil => rfl
  | cons y rest ih =>
      obtain ⟨hfirst, hrest⟩ := List.pairwise_cons.mp h
      -- what is smaller than the first item cannot come after it
      have hnone : ∀ {z}, z ≤ y → rest.filter (· < z) = [] := by
        intro z hz
        refine List.filter_eq_nil_iff.mpr fun w hw => ?_
        simpa using hz.trans (hfirst w hw)
      have hblock := ih hrest
      rcases lt_trichotomy y x with hlt | rfl | hgt
      · rw [List.filter_cons_of_pos (by simpa using hlt), List.count_cons_of_ne hlt.ne,
          List.filter_cons_of_neg (by simpa using hlt.le), List.cons_append, ← hblock]
      · rw [List.filter_cons_of_neg (by simp), List.filter_cons_of_neg (by simp), hnone le_rfl,
          List.count_cons_self, List.replicate_succ, List.nil_append, List.cons_append]
        rwa [hnone le_rfl, List.nil_append, ← List.cons_inj_right y] at hblock
      · have hrare : rest.count x = 0 :=
          List.count_eq_zero_of_not_mem fun hx => (hfirst x hx).not_gt hgt
        rw [List.filter_cons_of_neg (by simpa using hgt.le), List.filter_cons_of_pos (by simpa using hgt),
          hnone hgt.le, List.count_cons_of_ne hgt.ne', hrare]
        rwa [hnone hgt.le, hrare, ← List.cons_inj_right y] at hblock

theorem exists_block (h : items.Pairwise (· ≤ ·)) (x : α) :
    ∃ before after, items = before ++ (List.replicate (items.count x) x ++ after) ∧
      x ∉ before ∧ x ∉ after :=
  ⟨_, _, eq_append_replicate h x, by simp, by simp⟩

theorem Repeats.exists_count : Repeats items → ∃ x, 2 ≤ items.count x := by
  rintro ⟨before, x, after, rfl⟩
  refine ⟨x, ?_⟩
  rw [List.count_append, List.count_cons_self, List.count_cons_self]
  omega

theorem repeats_iff_count (h : items.Pairwise (· ≤ ·)) : Repeats items ↔ ∃ x, 2 ≤ items.count x := by
  refine ⟨Repeats.exists_count, ?_⟩
  rintro ⟨x, hx⟩
  obtain ⟨before, after, hitems, -, -⟩ := exists_block h x
  obtain ⟨k, hk⟩ := Nat.exists_eq_add_of_le' hx
  rw [hk] at hitems
  exact ⟨before, x, List.replicate k x ++ after, hitems⟩

theorem not_mem_before {before : List α} (h : (before ++ [x]).Pairwise (· ≤ ·))
    (hlast : before.getLast? ≠ some x) : x ∉ before := by
  have hback : (x :: before.reverse).Pairwise fun a b => b ≤ a := by
    rwa [← List.reverse_concat', List.pairwise_reverse]
  rw [← List.mem_reverse]
  exact not_mem_behind (fun hba hab => le_antisymm hab hba) hback (by rwa [List.head?_reverse])

/-- Two items stand between others when some item occurs exactly twice. -/
theorem pairs_iff_count (h : items.Pairwise (· ≤ ·)) : Pairs items ↔ ∃ x, items.count x = 2 := by
  constructor
  · rintro ⟨before, x, after, rfl, hbefore, hafter⟩
    rw [List.append_cons] at h
    obtain ⟨hfront, hback, -⟩ := List.pairwise_append.mp h
    refine ⟨x, ?_⟩
    rw [List.count_append, List.count_cons_self, List.count_cons_self,
      List.count_eq_zero_of_not_mem (not_mem_before hfront hbefore),
      List.count_eq_zero_of_not_mem (not_mem_behind le_antisymm hback hafter)]
  · rintro ⟨x, hx⟩
    obtain ⟨before, after, hitems, hbefore, hafter⟩ := exists_block h x
    rw [hx] at hitems
    exact ⟨before, x, after, hitems, fun hlast => hbefore (List.mem_of_getLast? hlast),
      fun hfirst => hafter (List.mem_of_head? hfirst)⟩

/-- **The tests on neighbours mean what the rules say.**  A list passes the first just if no item is
greater than any later one, and the others just if two equal items stand side by side, with no third
next to them if a run of two is wanted.  Where no item is greater than a later one, this is that
some item occurs twice or more, or exactly twice. -/
theorem neighbours_tell_order_and_occurrences (items : List α) :
    (isSorted items = true ↔
      ∀ (i j : Nat) (hij : i < j) (hj : j < items.length), items[i] ≤ items[j]) ∧
    (hasRepetition items = true ↔ ∃ i x, items[i]? = some x ∧ items[i + 1]? = some x) ∧
    (hasPair items = true ↔ ∃ i x, items[i]? = some x ∧ items[i + 1]? = some x ∧
      (∀ j, j + 1 = i → items[j]? ≠ some x) ∧ items[i + 2]? ≠ some x) ∧
    (hasPair items = true → hasRepetition items = true) ∧
    (isSorted items = true →
      (hasRepetition items = true ↔ ∃ x, 2 ≤ items.count x) ∧
      (hasPair items = true ↔ ∃ x, items.count x = 2)) := by
  rw [hasRepetition_iff, hasPair_iff, isSorted_iff]
  refine ⟨?_, repeats_iff_places, pairs_iff_places, Pairs.repeats, fun h =>
    ⟨repeats_iff_count h, pairs_iff_count h⟩⟩
  rw [List.pairwise_iff_getElem]
  exact ⟨fun h i j hij hj => h i j (by omega) hj hij, fun h i j _ hj hij => h i j hij hj⟩

/-- A run of two between longer ones and a shorter one, longer ones without it, and an item that
occurs twice without equal neighbours. -/
theorem runs_of_many_lengths :
    (isSorted [1, 1, 1, 2, 3, 3, 4, 4, 4, 4] = true ∧ ∃ x, [1, 1, 1, 2, 3, 3, 4, 4, 4, 4].count x = 2) ∧
      (isSorted [1, 1, 1, 2, 4, 4, 4] = true ∧ (∃ x, 2 ≤ [1, 1, 1, 2, 4, 4, 4].count x) ∧
        ¬ ∃ x, [1, 1, 1, 2, 4, 4, 4].count x = 2) ∧
      ¬ (∃ i x, [1, 2, 1][i]? = some x ∧ [1, 2, 1][i + 1]? = some x) ∧ [1, 2, 1].count 1 = 2 := by
  obtain ⟨-, -, -, -, htwo⟩ := neighbours_tell_order_and_occurrences [1, 1, 1, 2, 3, 3, 4, 4, 4, 4]
  obtain ⟨-, -, -, -, hlong⟩ := neighbours_tell_order_and_occurrences [1, 1, 1, 2, 4, 4, 4]
  obtain ⟨-, hrepetition, -⟩ := neighbours_tell_order_and_occurrences [1, 2, 1]
  obtain ⟨hlong, hpair⟩ := hlong (by decide)
  refine ⟨⟨by decide, (htwo (by decide)).2.mp (by decide)⟩,
    ⟨by decide, hlong.mp (by decide), fun h => ?_⟩, fun h => ?_, by decide⟩
  · exact absurd (hpair.mpr h) (by decide)
  · exact absurd (hrepetition.mpr h) (by decide)

end Occurrences

end Advent.Puzzle.Password
