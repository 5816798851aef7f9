/-
What the tests on neighbours mean.

Order is tested between neighbours only and holds between any two items, and the runs into
which a list is split are those that cannot be made longer.  So each test is a property of
the places of the items, which a map that keeps order and equality leaves alone.
-/
import Mathlib.Data.List.SplitBy
import Mathlib.Data.Set.Operations
import Advent.Puzzle.Password

namespace Advent.Puzzle.Password

variable {α β : Type}

/-- Two neighbours are equal. -/
def Repeats (items : List α) : Prop := ∃ before x after, items = before ++ x :: x :: after

/-- Two neighbours are equal, and the items around them are others. -/
def Pairs (items : List α) : Prop :=
  ∃ before x after, items = before ++ x :: x :: after ∧
    before.getLast? ≠ some x ∧ after.head? ≠ some x

theorem Pairs.repeats {items : List α} : Pairs items → Repeats items := by
  rintro ⟨before, x, after, hitems, -, -⟩
  exact ⟨before, x, after, hitems⟩

/-! ### The tests

Each test looks at neighbours, and neighbours are what a list is made of one item at a time.  So
each is taken apart along the list, until it says something of places that no longer mentions the
test.
-/

theorem isSorted_cons_cons [LE α] [DecidableLE α] (x y : α) (rest : List α) :
    isSorted (x :: y :: rest) = true ↔ x ≤ y ∧ isSorted (y :: rest) = true := by
  simp [isSorted]

theorem isSorted_iff_isChain [LE α] [DecidableLE α] (items : List α) :
    isSorted items = true ↔ items.IsChain (· ≤ ·) := by
  induction items using List.twoStepInduction with
  | nil => simp [isSorted]
  | singleton x => simp [isSorted]
  | cons_cons x y rest _ ih => rw [isSorted_cons_cons, List.isChain_cons_cons, ih]

/-- A list is sorted when no item is greater than a later one. -/
theorem isSorted_iff [LE α] [DecidableLE α] [IsTrans α (· ≤ ·)] (items : List α) :
    isSorted items = true ↔ items.Pairwise (· ≤ ·) := by
  rw [isSorted_iff_isChain, List.isChain_iff_pairwise]

theorem repeats_cons_cons (x y : α) (rest : List α) :
    Repeats (x :: y :: rest) ↔ x = y ∨ Repeats (y :: rest) := by
  constructor
  · rintro ⟨before, z, after, hitems⟩
    cases before with
    | nil =>
        obtain ⟨rfl, rfl, -⟩ : x = z ∧ y = z ∧ rest = after := by simpa using hitems
        exact Or.inl rfl
    | cons w before =>
        obtain ⟨-, hrest⟩ : x = w ∧ y :: rest = before ++ z :: z :: after := by simpa using hitems
        exact Or.inr ⟨before, z, after, hrest⟩
  · rintro (rfl | ⟨before, z, after, hrest⟩)
    · exact ⟨[], x, rest, rfl⟩
    · exact ⟨x :: before, z, after, by rw [hrest, List.cons_append]⟩

theorem hasRepetition_iff [BEq α] [LawfulBEq α] (items : List α) :
    hasRepetition items = true ↔ Repeats items := by
  induction items using List.twoStepInduction with
  | nil => simp [hasRepetition, Repeats]
  | singleton x => simp [hasRepetition, Repeats, List.cons_eq_append_iff]
  | cons_cons x y rest _ ih =>
      rw [repeats_cons_cons, ← ih]
      simp [hasRepetition]

/-- A run that was split off cannot be made longer. -/
theorem pairs_of_mem_splitBy [BEq α] [LawfulBEq α] {items run : List α}
    (hrun : run ∈ items.splitBy (· == ·)) (htwo : run.length = 2) : Pairs items := by
  obtain ⟨x, y, rfl⟩ := List.length_eq_two.mp htwo
  obtain rfl : x = y := by simpa using List.isChain_of_mem_splitBy hrun
  obtain ⟨earlier, later, hsplit⟩ := List.append_of_mem hrun
  -- the library knows that runs side by side end and begin with different items
  have hends := List.isChain_getLast_head_splitBy (· == ·) items
  rw [hsplit, List.isChain_append] at hends
  obtain ⟨-, hlater, hearlier⟩ := hends
  refine ⟨earlier.flatten, x, later.flatten, ?_, ?_, ?_⟩
  · rw [← List.flatten_splitBy (· == ·) items, hsplit]
    simp
  · intro hx
    obtain rfl | ⟨runs, last, rfl⟩ := earlier.eq_nil_or_concat'
    · simp at hx
    · obtain ⟨hne, _, hother⟩ := hearlier last (by simp) [x, x] rfl
      rw [List.flatten_append, List.flatten_singleton,
        List.getLast?_append_of_ne_nil _ hne, List.getLast?_eq_some_getLast hne,
        Option.some.injEq] at hx
      simp [hx] at hother
  · intro hx
    cases later with
    | nil => simp at hx
    | cons next runs =>
        obtain ⟨_, hne, hother⟩ := (List.isChain_cons_cons.mp hlater).1
        rw [List.flatten_cons, List.head?_append_of_ne_nil _ hne, List.head?_eq_some_head hne,
          Option.some.injEq] at hx
        simp [hx] at hother

/-- Two equal items between others are split off as a run of two. -/
theorem mem_splitBy_of_ends [BEq α] [LawfulBEq α] {before after : List α} {x : α}
    (hbefore : before.getLast? ≠ some x) (hafter : after.head? ≠ some x) :
    [x, x] ∈ (before ++ x :: x :: after).splitBy (· == ·) := by
  have hleft : ∀ y ∈ before.getLast?, (y == x) = false := by
    intro y hy
    rw [beq_eq_false_iff_ne]
    rintro rfl
    exact hbefore hy
  have hright : ∀ y ∈ [x, x].getLast?, ∀ z ∈ after.head?, (y == z) = false := by
    rintro _ ⟨⟩ z hz
    rw [beq_eq_false_iff_ne]
    rintro rfl
    exact hafter hz
  have hpair : [x, x].splitBy (· == ·) = [[x, x]] := List.splitBy_of_isChain (by simp) (by simp)
  have hrest : (x :: x :: after).splitBy (· == ·) = [x, x] :: after.splitBy (· == ·) := by
    rw [← List.singleton_append (x := [x, x]), ← hpair]
    exact List.splitBy_append hright
  rw [List.splitBy_append_cons _ hleft, hrest]
  exact List.mem_append_right _ List.mem_cons_self

/-- **The test for a pair finds two equal items between others.** -/
theorem hasPair_iff [BEq α] [LawfulBEq α] (items : List α) :
    hasPair items = true ↔ Pairs items := by
  have hruns : hasPair items = true ↔ ∃ run ∈ items.splitBy (· == ·), run.length = 2 := by
    simp [hasPair]
  rw [hruns]
  constructor
  · rintro ⟨run, hrun, htwo⟩
    exact pairs_of_mem_splitBy hrun htwo
  · rintro ⟨before, x, after, rfl, hbefore, hafter⟩
    exact ⟨[x, x], mem_splitBy_of_ends hbefore hafter, rfl⟩

instance [DecidableEq α] (items : List α) : Decidable (Repeats items) :=
  decidable_of_iff _ (hasRepetition_iff items)

instance [DecidableEq α] (items : List α) : Decidable (Pairs items) :=
  decidable_of_iff _ (hasPair_iff items)

/-! ### Other alphabets -/

section Alphabet

variable {f : α → β} {items : List α}

/-- A map that tells the items apart takes equal neighbours to equal neighbours, and only those. -/
theorem map_eq_double_iff (hf : Set.InjOn f {x | x ∈ items}) {before after : List β} {y : β} :
    items.map f = before ++ y :: y :: after ↔
      ∃ first x last, items = first ++ x :: x :: last ∧
        first.map f = before ∧ f x = y ∧ last.map f = after := by
  constructor
  · intro h
    obtain ⟨first, tail, rfl, rfl, htail⟩ := List.map_eq_append_iff.mp h
    obtain ⟨x, rest, rfl, rfl, hrest⟩ := List.map_eq_cons_iff.mp htail
    obtain ⟨z, last, rfl, hz, rfl⟩ := List.map_eq_cons_iff.mp hrest
    obtain rfl : z = x := hf (by simp) (by simp) hz
    exact ⟨first, z, last, rfl, rfl, rfl, rfl⟩
  · rintro ⟨first, x, last, rfl, rfl, rfl, rfl⟩
    simp

theorem repeats_map (hf : Set.InjOn f {x | x ∈ items}) : Repeats (items.map f) ↔ Repeats items := by
  simp only [Repeats, map_eq_double_iff hf]
  constructor
  · rintro ⟨-, -, -, first, x, last, hitems, -⟩
    exact ⟨first, x, last, hitems⟩
  · rintro ⟨first, x, last, hitems⟩
    exact ⟨_, _, _, first, x, last, hitems, rfl, rfl, rfl⟩

theorem pairs_map (hf : Set.InjOn f {x | x ∈ items}) : Pairs (items.map f) ↔ Pairs items := by
  simp only [Pairs, map_eq_double_iff hf]
  constructor
  · rintro ⟨-, -, -, ⟨first, x, last, hitems, rfl, rfl, rfl⟩, hfirst, hlast⟩
    refine ⟨first, x, last, hitems, ?_, ?_⟩
    · intro hx
      simp [hx] at hfirst
    · intro hx
      simp [hx] at hlast
  · rintro ⟨first, x, last, hitems, hfirst, hlast⟩
    refine ⟨_, _, _, ⟨first, x, last, hitems, rfl, rfl, rfl⟩, ?_, ?_⟩
    · rw [List.getLast?_map]
      intro hx
      obtain ⟨z, hz, hzx⟩ := Option.map_eq_some_iff.mp hx
      have hmem := List.mem_of_getLast? hz
      exact hfirst (hf (by simp [hitems, hmem]) (by simp [hitems]) hzx ▸ hz)
    · rw [List.head?_map]
      intro hx
      obtain ⟨z, hz, hzx⟩ := Option.map_eq_some_iff.mp hx
      have hmem := List.mem_of_head? hz
      exact hlast (hf (by simp [hitems, hmem]) (by simp [hitems]) hzx ▸ hz)

end Alphabet

section Front

variable {c : α} {items : List α}

theorem cons_eq_double_iff (hc : c ∉ items) {before after : List α} {x : α} :
    c :: items = before ++ x :: x :: after ↔
      ∃ first, before = c :: first ∧ items = first ++ x :: x :: after := by
  constructor
  · intro h
    cases before with
    | nil =>
        obtain ⟨rfl, rfl⟩ : c = x ∧ items = x :: after := by simpa using h
        simp at hc
    | cons d first =>
        obtain ⟨rfl, hitems⟩ : c = d ∧ items = first ++ x :: x :: after := by simpa using h
        exact ⟨first, rfl, hitems⟩
  · rintro ⟨first, rfl, rfl⟩
    rfl

theorem repeats_cons_of_not_mem (hc : c ∉ items) : Repeats (c :: items) ↔ Repeats items := by
  simp only [Repeats, cons_eq_double_iff hc]
  constructor
  · rintro ⟨-, x, last, first, -, hitems⟩
    exact ⟨first, x, last, hitems⟩
  · rintro ⟨first, x, last, hitems⟩
    exact ⟨_, x, last, first, rfl, hitems⟩

/-- An item that occurs nowhere else makes no pair and breaks none. -/
theorem pairs_cons_of_not_mem (hc : c ∉ items) : Pairs (c :: items) ↔ Pairs items := by
  have hends : ∀ {first last : List α} {x : α}, items = first ++ x :: x :: last →
      ((c :: first).getLast? = some x ↔ first.getLast? = some x) := by
    rintro first last x rfl
    cases first with
    | nil =>
      have hcx : c ≠ x := fun h => hc (by simp [h])
      simp [hcx]
    | cons d first => simp
  simp only [Pairs, cons_eq_double_iff hc]
  constructor
  · rintro ⟨-, x, last, ⟨first, rfl, hitems⟩, hfirst, hlast⟩
    exact ⟨first, x, last, hitems, mt (hends hitems).mpr hfirst, hlast⟩
  · rintro ⟨first, x, last, hitems, hfirst, hlast⟩
    exact ⟨_, x, last, ⟨first, rfl, hitems⟩, mt (hends hitems).mp hfirst, hlast⟩

end Front

end Advent.Puzzle.Password
