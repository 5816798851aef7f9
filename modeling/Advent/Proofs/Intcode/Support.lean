/-
A memory is a function that is zero almost everywhere.

Whatever was loaded into a memory and written to it since, all that can be read back is,
for each address, the value that came last.  `Latest` says which value that is, by looking
at the loaded cells and at the writes alone, and `get_eq_iff_latest` that it is the one
that is read.  Equality compares nothing else, so neither the extent nor a zero that was
stored on the way tells two memories apart.

The snapshot is this function written out from address zero up to the extent.  Where no
address is negative nothing is left out of it, and loading it gives the memory back.
-/
import Mathlib.Data.Set.Finite.Basic
import Advent.Proofs.Intcode.Extent
import Advent.Proofs.Intcode.History

namespace Advent.Intcode.Memory

/-- The value that an address was given last: by the last write to it, by the cells that
were loaded if nothing was written there, and zero if it is in neither. -/
inductive Latest (cells : Std.TreeMap Int Int) (writes : List (Int × Int)) (a : Int) : Int → Prop
  | written {value : Int} (before after : List (Int × Int))
      (hwrites : writes = before ++ (a, value) :: after) (hlast : ∀ w ∈ after, w.1 ≠ a) :
      Latest cells writes a value
  | loaded {value : Int} (hcell : cells[a]? = some value) (hunwritten : ∀ w ∈ writes, w.1 ≠ a) :
      Latest cells writes a value
  | untouched (h : ¬ Touched cells writes a) : Latest cells writes a 0

/-! ### What is read -/

theorem get_putAll_of_ne {writes : List (Int × Int)} {a : Int} (h : ∀ w ∈ writes, w.1 ≠ a) :
    ∀ m : Memory, (m.putAll writes).get a = m.get a := by
  induction writes with
  | nil => intro m; rfl
  | cons w rest ih =>
      intro m
      have hrest := ih (fun w' hw' => h w' (List.mem_cons_of_mem w hw')) (m.put w.1 w.2)
      have hw : ¬ a = w.1 := fun hc => h w List.mem_cons_self hc.symm
      show ((m.put w.1 w.2).putAll rest).get a = m.get a
      rw [hrest, get_put, if_neg hw]

theorem exists_last_write {writes : List (Int × Int)} {a : Int} (h : ∃ w ∈ writes, w.1 = a) :
    ∃ before value after, writes = before ++ (a, value) :: after ∧ ∀ w ∈ after, w.1 ≠ a := by
  induction writes with
  | nil => simp at h
  | cons w rest ih =>
      by_cases hrest : ∃ w' ∈ rest, w'.1 = a
      · obtain ⟨before, value, after, heq, hlast⟩ := ih hrest
        exact ⟨w :: before, value, after, by rw [heq, List.cons_append], hlast⟩
      · have hw : w.1 = a := by simpa [hrest] using h
        refine ⟨[], w.2, rest, by rw [← hw]; rfl, fun w' hw' hc => hrest ⟨w', hw', hc⟩⟩

section

variable (cells : Std.TreeMap Int Int) (writes : List (Int × Int))

/-- Every address was given a value last, if only the zero that it has from the beginning. -/
theorem exists_latest (a : Int) : ∃ value, Latest cells writes a value := by
  by_cases hwrites : ∃ w ∈ writes, w.1 = a
  · obtain ⟨before, value, after, heq, hlast⟩ := exists_last_write hwrites
    exact ⟨value, .written before after heq hlast⟩
  · have hunwritten : ∀ w ∈ writes, w.1 ≠ a := fun w hw hc => hwrites ⟨w, hw, hc⟩
    cases hcell : cells[a]? with
    | some value => exact ⟨value, .loaded hcell hunwritten⟩
    | none =>
        refine ⟨0, .untouched fun htouched => ?_⟩
        rcases htouched with hmem | hwritten
        · simp [Std.TreeMap.mem_iff_isSome_getElem?, hcell] at hmem
        · exact hwrites hwritten

variable {cells writes}

theorem Latest.get_eq {a value : Int} (h : Latest cells writes a value) :
    ((ofMap cells).putAll writes).get a = value := by
  cases h with
  | written before after hwrites hlast =>
      rw [hwrites, putAll_append]
      show ((((ofMap cells).putAll before).put a value).putAll after).get a = value
      rw [get_putAll_of_ne hlast, get_put, if_pos rfl]
  | loaded hcell hunwritten =>
      have hcell' : (ofMap cells).cells[a]? = some value := hcell
      rw [get_putAll_of_ne hunwritten, Memory.get_eq, hcell', Option.getD_some]
  | untouched h =>
      have hnone : a ∉ ((ofMap cells).putAll writes).cells :=
        fun hmem => h ((mem_putAll writes (ofMap cells) a).mp hmem)
      exact Std.TreeMap.getD_eq_fallback hnone

/-- **What is read at an address is the value that it was given last.** -/
theorem get_eq_iff_latest (a value : Int) :
    ((ofMap cells).putAll writes).get a = value ↔ Latest cells writes a value := by
  refine ⟨fun h => ?_, Latest.get_eq⟩
  obtain ⟨latest, hlatest⟩ := exists_latest cells writes a
  rwa [← h, hlatest.get_eq]

end

/-- Only cells read as anything other than zero, and there are finitely many. -/
theorem finite_support (m : Memory) : {a | m.get a ≠ 0}.Finite := by
  refine m.cells.keys.finite_toSet.subset fun a ha => ?_
  by_contra hnone
  have hnot : a ∉ m.cells := fun hmem => hnone (by simpa using hmem)
  exact ha (Std.TreeMap.getD_eq_fallback hnot)

/-! ### Snapshots

A snapshot goes from zero to the extent, so it leaves out what lies below zero and nothing else.
-/

theorem length_snapshot (m : Memory) : m.snapshot.length = m.extent.toNat := by
  simp [snapshot]

theorem getElem?_snapshot (m : Memory) (i : Nat) :
    m.snapshot[i]? = if i < m.extent.toNat then some (m.get i) else none := by
  unfold snapshot
  by_cases h : i < m.extent.toNat <;> simp [h]

theorem snapshot_ofValues (values : List Int) : (ofValues values).snapshot = values := by
  refine List.ext_getElem? fun i => ?_
  rw [getElem?_snapshot, extent_ofValues, get_ofValues, Int.toNat_natCast, Int.toNat_natCast,
    if_pos (Int.natCast_nonneg i)]
  by_cases h : i < values.length
  · rw [if_pos h, List.getElem?_eq_getElem h, Option.getD_some]
  · rw [if_neg h, List.getElem?_eq_none (Nat.le_of_not_lt h)]

theorem Grounded.extent_nonneg {m : Memory} (h : m.Grounded) : 0 ≤ m.extent := by
  rcases h.top with ⟨hzero, -⟩ | hlast
  · omega
  · have := h.nonneg _ hlast
    omega

theorem Grounded.get_of_neg {m : Memory} (h : m.Grounded) {a : Int} (ha : a < 0) : m.get a = 0 := by
  refine Std.TreeMap.getD_eq_fallback fun hmem => ?_
  have := h.nonneg a hmem
  omega

/-- A snapshot holds all of a memory without a negative address. -/
theorem Grounded.ofValues_snapshot {m : Memory} (h : m.Grounded) :
    (ofValues m.snapshot == m) = true ∧ (ofValues m.snapshot).extent = m.extent := by
  have hextent := h.extent_nonneg
  refine ⟨(beq_iff _ _).mpr fun a => ?_, ?_⟩
  · rw [get_ofValues]
    by_cases ha : 0 ≤ a
    · rw [if_pos ha, getElem?_snapshot]
      by_cases hlt : a < m.extent
      · rw [if_pos (by omega), Option.getD_some, Int.toNat_of_nonneg ha]
      · rw [if_neg (by omega), get_of_extent_le h.wf (Int.not_lt.mp hlt)]
        rfl
    · rw [if_neg ha, h.get_of_neg (Int.not_le.mp ha)]
  · rw [extent_ofValues, length_snapshot, Int.toNat_of_nonneg hextent]

/--
**A memory is the function that gives every address its latest value.**  That value is zero
at all but finitely many addresses, and two memories are equal exactly when they read alike
everywhere, however they were loaded and written.  A snapshot gives the values back that a
memory was loaded with, and loading the snapshot of a memory without a negative address
gives an equal memory with the same extent.
-/
theorem memory_is_its_latest_values (cells cells' : Std.TreeMap Int Int)
    (writes writes' : List (Int × Int)) :
    let m := (ofMap cells).putAll writes
    let m' := (ofMap cells').putAll writes'
    (∀ a value, m.get a = value ↔ Latest cells writes a value) ∧ {a | m.get a ≠ 0}.Finite ∧
      ((m == m') = true ↔ ∀ a, m.get a = m'.get a) ∧
      (∀ values, (ofValues values).snapshot = values) ∧
      ((∀ a, Touched cells writes a → 0 ≤ a) →
        (ofValues m.snapshot == m) = true ∧ (ofValues m.snapshot).extent = m.extent) := by
  intro m m'
  refine ⟨get_eq_iff_latest, m.finite_support, beq_iff m m', snapshot_ofValues, fun hnonneg => ?_⟩
  have hgrounded : m.Grounded :=
    putAll_grounded writes fun a ha => hnonneg a ((mem_putAll writes (ofMap cells) a).mp ha)
  exact hgrounded.ofValues_snapshot

/-- Zeros over a loaded value and past all others change the extent, and leave the memory equal
to one that never held anything there; its snapshot brings both back. -/
theorem cleared_memory_is_restored :
    let cells : Std.TreeMap Int Int := (∅ : Std.TreeMap Int Int).insert 0 3 |>.insert 2 9
    let writes : List (Int × Int) := [(2, 0), (5, 0)]
    let m := (ofMap cells).putAll writes
    (∀ a, Touched cells writes a → 0 ≤ a) ∧ Latest cells writes 2 0 ∧ m.extent = 6 ∧
      (m == (ofMap ((∅ : Std.TreeMap Int Int).insert 0 3)).putAll []) = true ∧
      (ofValues m.snapshot == m) = true ∧ (ofValues m.snapshot).extent = 6 := by
  intro cells writes m
  have hnonneg : ∀ a, Touched cells writes a → 0 ≤ a := by
    intro a ha
    simp [Touched, cells, writes] at ha
    omega
  obtain ⟨hget, -, -, -, hsnapshot⟩ :=
    memory_is_its_latest_values cells ((∅ : Std.TreeMap Int Int).insert 0 3) writes []
  obtain ⟨hequal, hextent⟩ := hsnapshot hnonneg
  have hsix : m.extent = 6 := by cbv
  exact ⟨hnonneg, (hget 2 0).mp (by cbv), hsix, by cbv, hequal, hextent.trans hsix⟩

end Advent.Intcode.Memory
