/-
What a memory remembers.

A write settles the value of one address and leaves every other cell alone, and it
raises the extent to one past that address unless the extent lies beyond it already.
`Wrote` is that sentence as a relation between two memories, and `put_wrote` says that
`put` satisfies it.

A memory that was loaded from cells and then written to keeps every cell below its
extent.  `WF` is this invariant: it is what makes an address at or past the extent
read as zero, whatever was loaded and written before.
-/
import Advent.Intcode.Memory

namespace Advent.Intcode.Memory

/-! ### Reading after writing -/

theorem get_eq (m : Memory) (a : Int) : m.get a = m.cells[a]?.getD 0 :=
  Std.TreeMap.getD_eq_getD_getElem?

/-- A write settles one cell and leaves every other one as it was. -/
theorem cells_put (m : Memory) (a value b : Int) :
    (m.put a value).cells[b]? = if b = a then some value else m.cells[b]? := by
  show (m.cells.insert a value)[b]? = _
  rw [Std.TreeMap.getElem?_insert]
  by_cases h : b = a
  · rw [if_pos h, if_pos (by rw [h]; exact Std.ReflCmp.compare_self)]
  · rw [if_neg h, if_neg (by rw [Std.compare_eq_iff_eq]; exact Ne.symm h)]

theorem mem_put (m : Memory) (a value b : Int) :
    b ∈ (m.put a value).cells ↔ b = a ∨ b ∈ m.cells := by
  rw [Std.TreeMap.mem_iff_isSome_getElem?, Std.TreeMap.mem_iff_isSome_getElem?, cells_put]
  by_cases h : b = a <;> simp [h]

theorem get_put (m : Memory) (a value b : Int) :
    (m.put a value).get b = if b = a then value else m.get b := by
  rw [get_eq, cells_put, get_eq]
  by_cases h : b = a <;> simp [h]

/-- A write raises the extent to one past its address, unless it lies beyond that already. -/
theorem extent_put (m : Memory) (a value : Int) :
    (m.put a value).extent = max m.extent (a + 1) := by
  show (if m.extent ≤ a then a + 1 else m.extent) = _
  split <;> omega

/-- `after` is `before` with one value put: the cell at the address holds it, every
other cell is as it was, and the extent is one past the address if it was not beyond
it already. -/
structure Wrote (before : Memory) (address value : Int) (after : Memory) : Prop where
  cells : ∀ a, after.cells[a]? = if a = address then some value else before.cells[a]?
  extent : after.extent = max before.extent (address + 1)

theorem put_wrote (m : Memory) (a value : Int) : Wrote m a value (m.put a value) :=
  ⟨cells_put m a value, extent_put m a value⟩

/-! ### Cells lie below the extent

Loading takes the extent from the cells, and a write raises it past its own address.  So the
invariant holds of a loaded memory, and goes on holding.
-/

/-- Every cell lies below the extent. -/
structure WF (m : Memory) : Prop where
  lt_extent : ∀ a, a ∈ m.cells → a < m.extent

theorem ofMap_wf (cells : Std.TreeMap Int Int) : WF (ofMap cells) := by
  refine ⟨fun a ha => ?_⟩
  have ha' : a ∈ cells := ha
  show a < extentOf cells
  unfold extentOf
  split
  · rename_i top htop
    obtain ⟨-, hle⟩ := Std.TreeMap.maxKey?_eq_some_iff_mem_and_forall.mp htop
    have := Std.isLE_compare.mp (hle a ha')
    omega
  · rename_i hnone
    rw [Std.TreeMap.maxKey?_eq_none_iff, Std.TreeMap.isEmpty_iff_forall_not_mem] at hnone
    exact absurd ha' (hnone a)

/-- A write keeps the invariant, since it raises the extent past the one cell that it adds. -/
theorem put_wf {m : Memory} (hm : WF m) (a value : Int) : WF (m.put a value) := by
  refine ⟨fun b hb => ?_⟩
  rw [extent_put]
  rcases (mem_put m a value b).mp hb with rfl | hmem
  · omega
  · have := hm.lt_extent b hmem
    omega

/-- Nothing is stored at or past the extent, so zero is read there. -/
theorem get_of_extent_le {m : Memory} (hm : WF m) {a : Int} (ha : m.extent ≤ a) :
    m.get a = 0 := by
  refine Std.TreeMap.getD_eq_fallback fun hmem => ?_
  have := hm.lt_extent a hmem
  omega

/-- The values of some addresses put one after another. -/
def putAll (m : Memory) (writes : List (Int × Int)) : Memory :=
  writes.foldl (fun m (a, value) => m.put a value) m

theorem putAll_append (m : Memory) (writes rest : List (Int × Int)) :
    m.putAll (writes ++ rest) = (m.putAll writes).putAll rest :=
  List.foldl_append

theorem putAll_wf (writes : List (Int × Int)) :
    ∀ {m : Memory}, WF m → WF (m.putAll writes) := by
  induction writes with
  | nil => intro m hm; exact hm
  | cons w rest ih => intro m hm; exact ih (put_wf hm w.1 w.2)

theorem mem_putAll (writes : List (Int × Int)) :
    ∀ (m : Memory) (a : Int), a ∈ (m.putAll writes).cells ↔ a ∈ m.cells ∨ ∃ w ∈ writes, w.1 = a := by
  induction writes with
  | nil => intro m a; simp [putAll]
  | cons w rest ih =>
      intro m a
      refine (ih (m.put w.1 w.2) a).trans ?_
      rw [mem_put]
      simp only [List.mem_cons, exists_eq_or_imp, eq_comm (a := a)]
      rw [or_assoc, or_left_comm]

/-- Writes raise the extent to one past the highest address among them. -/
theorem extent_putAll (writes : List (Int × Int)) :
    ∀ m : Memory, (m.putAll writes).extent = (writes.map fun w => w.1 + 1).foldl max m.extent := by
  induction writes with
  | nil => intro m; rfl
  | cons w rest ih =>
      intro m
      refine (ih (m.put w.1 w.2)).trans ?_
      rw [extent_put]
      rfl

theorem extent_le_putAll (writes : List (Int × Int)) :
    ∀ m : Memory, m.extent ≤ (m.putAll writes).extent := by
  induction writes with
  | nil => intro m; exact Int.le_refl _
  | cons w rest ih =>
      intro m
      have hput := extent_put m w.1 w.2
      have hrest := ih (m.put w.1 w.2)
      exact Int.le_trans (by omega) hrest

/-! ### The extent is that of the cells

A copy takes its extent from the cells.  It has that of the memory itself as long as no
cell was written at a negative address.
-/

/-- The extent is one past the highest cell, or zero without any. -/
def Tight (m : Memory) : Prop := m.extent = extentOf m.cells

/-- A copy takes its extent from the cells, so it is the memory itself where that is the extent. -/
theorem copy_of_tight {m : Memory} (hm : m.Tight) : m.copy = m := by
  unfold copy ofMap
  rw [← hm]

/-- Only a write below zero can part the extent from the cells. -/
theorem put_tight {m : Memory} (hm : m.Tight) {a : Int} (ha : 0 ≤ a) (value : Int) :
    (m.put a value).Tight := by
  have hextent : m.extent = extentOf m.cells := hm
  show (if m.extent ≤ a then a + 1 else m.extent) = extentOf (m.cells.insert a value)
  rw [hextent]
  unfold extentOf
  rw [Std.TreeMap.maxKey?_insert]
  rcases m.cells.maxKey? with _ | top
  · simp [ha]
  · by_cases htop : top ≤ a
    · simp [Std.isLE_compare, htop]
      omega
    · simp [Std.isLE_compare, htop]
      omega

/-- No cell has a negative address, and the extent is one past the highest address of a cell,
or zero without any. -/
structure Grounded (m : Memory) : Prop where
  nonneg : ∀ a, a ∈ m.cells → 0 ≤ a
  below : ∀ a, a ∈ m.cells → a < m.extent
  top : m.extent = 0 ∧ (∀ a, a ∉ m.cells) ∨ m.extent - 1 ∈ m.cells

/-- The extent is one past the highest of some addresses, or zero when there is none. -/
def IsExtentOf (extent : Int) (addresses : Int → Prop) : Prop :=
  (extent = 0 ∧ ∀ a, ¬ addresses a) ∨ (addresses (extent - 1) ∧ ∀ a, addresses a → a < extent)

theorem IsExtentOf.unique {extent extent' : Int} {addresses : Int → Prop}
    (h : IsExtentOf extent addresses) (h' : IsExtentOf extent' addresses) : extent = extent' := by
  rcases h with ⟨hzero, hnone⟩ | ⟨hlast, hbelow⟩ <;> rcases h' with ⟨hzero', hnone'⟩ | ⟨hlast', hbelow'⟩
  · rw [hzero, hzero']
  · exact absurd hlast' (hnone _)
  · exact absurd hlast (hnone' _)
  · have h₁ := hbelow _ hlast'
    have h₂ := hbelow' _ hlast
    omega

theorem extentOf_isExtentOf (cells : Std.TreeMap Int Int) :
    IsExtentOf (extentOf cells) (· ∈ cells) := by
  have hbelow : ∀ a, a ∈ cells → a < extentOf cells := (ofMap_wf cells).lt_extent
  unfold extentOf at hbelow ⊢
  split at hbelow
  · rename_i top htop
    obtain ⟨hmem, -⟩ := Std.TreeMap.maxKey?_eq_some_iff_mem_and_forall.mp htop
    exact Or.inr ⟨(Int.add_sub_cancel top 1).symm ▸ hmem, hbelow⟩
  · rename_i hnone
    rw [Std.TreeMap.maxKey?_eq_none_iff, Std.TreeMap.isEmpty_iff_forall_not_mem] at hnone
    exact Or.inl ⟨rfl, hnone⟩

/-- A memory is grounded when its extent is that of its cells and none of them lies below zero. -/
theorem grounded_iff (m : Memory) : m.Grounded ↔ m.Tight ∧ ∀ a, a ∈ m.cells → 0 ≤ a := by
  have hcells := extentOf_isExtentOf m.cells
  refine ⟨fun h => ⟨?_, h.nonneg⟩, ?_⟩
  · have hextent : IsExtentOf m.extent (· ∈ m.cells) := h.top.imp_right fun hlast => ⟨hlast, h.below⟩
    exact hextent.unique hcells
  · rintro ⟨htight, hnonneg⟩
    refine ⟨hnonneg, fun a ha => ?_, ?_⟩
    · rw [htight]
      exact (ofMap_wf m.cells).lt_extent a ha
    · rw [htight]
      exact hcells.imp_right And.left

theorem Grounded.wf {m : Memory} (h : m.Grounded) : m.WF := ⟨h.below⟩

/-! ### Equality

Two memories are equal when they list the same cells other than zero.  The lists are in
ascending order of address, so this is to give the same value to every address.
-/

theorem mem_nonzero (m : Memory) (a value : Int) :
    (a, value) ∈ m.nonzero ↔ m.get a = value ∧ value ≠ 0 := by
  unfold nonzero
  rw [List.mem_filter, Std.TreeMap.mem_toList_iff_getElem?_eq_some, get_eq]
  rcases hcell : m.cells[a]? with _ | v
  · simp
    omega
  · simp

theorem nonzero_ascending (m : Memory) : m.nonzero.Pairwise fun x y => x.1 < y.1 := by
  have hcells := Std.TreeMap.ordered_keys_toList (t := m.cells)
  exact (hcells.imp fun h => Int.compare_eq_lt.mp h).filter _

/-- **Memories are equal just when every address reads alike.** -/
theorem beq_iff (m m' : Memory) : (m == m') = true ↔ ∀ a, m.get a = m'.get a := by
  show (m.nonzero == m'.nonzero) = true ↔ _
  rw [beq_iff_eq]
  refine ⟨fun h a => ?_, fun h => ?_⟩
  · have hmem : ∀ v, m.get a = v ∧ v ≠ 0 ↔ m'.get a = v ∧ v ≠ 0 := by
      intro v
      rw [← mem_nonzero, ← mem_nonzero, h]
    by_cases hzero : m.get a = 0
    · by_cases hzero' : m'.get a = 0
      · rw [hzero, hzero']
      · exact ((hmem _).mpr ⟨rfl, hzero'⟩).1
    · exact (((hmem _).mp ⟨rfl, hzero⟩).1).symm
  · have hnodup : ∀ m : Memory, m.nonzero.Nodup := fun m =>
      m.nonzero_ascending.imp fun hlt heq => by
        rw [heq] at hlt
        omega
    refine List.Perm.eq_of_pairwise (fun x y _ _ hxy hyx => ?_) m.nonzero_ascending
      m'.nonzero_ascending ((List.perm_ext_iff_of_nodup (hnodup m) (hnodup m')).mpr fun x => ?_)
    · omega
    · rw [mem_nonzero, mem_nonzero, h]

/-! ### Loading from address zero on -/

/-- What is loaded from an address on, by induction on the values. -/
theorem getElem?_loaded (values : List Int) (a : Int) :
    ∀ (start : Nat) (cells : Std.TreeMap Int Int),
      (((values.zipIdx start).map fun x => ((x.2 : Int), x.1)).foldl
        (fun map x => map.insert x.1 x.2) cells)[a]? =
        if (start : Int) ≤ a then (values[(a - start).toNat]?).or cells[a]? else cells[a]? := by
  induction values with
  | nil => intro start cells; simp
  | cons value values ih =>
      intro start cells
      rw [List.zipIdx_cons, List.map_cons, List.foldl_cons, ih, Std.TreeMap.getElem?_insert]
      simp only [Std.compare_eq_iff_eq]
      -- the address lies before the first value, at it, or behind it
      rcases Int.lt_trichotomy a start with hlt | heq | hgt
      · have hnext : ¬ ((start + 1 : Nat) : Int) ≤ a := by omega
        have hkey : ¬ (start : Int) = a := by omega
        have hstart : ¬ (start : Int) ≤ a := by omega
        rw [if_neg hnext, if_neg hkey, if_neg hstart]
      · have hnext : ¬ ((start + 1 : Nat) : Int) ≤ a := by omega
        rw [if_neg hnext, if_pos heq.symm, if_pos (Int.le_of_eq heq.symm), heq, Int.sub_self]
        rfl
      · have hnext : ((start + 1 : Nat) : Int) ≤ a := by omega
        have hkey : ¬ (start : Int) = a := by omega
        have hindex : (a - start).toNat = (a - (start + 1 : Nat)).toNat + 1 := by omega
        rw [if_pos hnext, if_neg hkey, if_pos (Int.le_of_lt hgt), hindex, List.getElem?_cons_succ]

theorem getElem?_ofValues (values : List Int) (a : Int) :
    (ofValues values).cells[a]? = if 0 ≤ a then values[a.toNat]? else none := by
  refine (getElem?_loaded values a 0 ∅).trans ?_
  by_cases ha : 0 ≤ a <;> simp [ha]

theorem get_ofValues (values : List Int) (a : Int) :
    (ofValues values).get a = if 0 ≤ a then values[a.toNat]?.getD 0 else 0 := by
  rw [get_eq, getElem?_ofValues]
  by_cases ha : 0 ≤ a <;> simp [ha]

theorem mem_ofValues (values : List Int) (a : Int) :
    a ∈ (ofValues values).cells ↔ 0 ≤ a ∧ a < values.length := by
  rw [Std.TreeMap.mem_iff_isSome_getElem?, getElem?_ofValues]
  by_cases ha : 0 ≤ a
  · simp [ha]
  · simp [ha]

theorem extent_ofValues (values : List Int) : (ofValues values).extent = values.length := by
  have hmem := mem_ofValues values
  show extentOf (ofValues values).cells = _
  unfold extentOf
  split
  · rename_i top htop
    obtain ⟨htop, hle⟩ := Std.TreeMap.maxKey?_eq_some_iff_mem_and_forall.mp htop
    obtain ⟨hnonneg, hlt⟩ := (hmem top).mp htop
    have hlast := Std.isLE_compare.mp (hle (values.length - 1) ((hmem _).mpr (by omega)))
    omega
  · rename_i hnone
    rw [Std.TreeMap.maxKey?_eq_none_iff, Std.TreeMap.isEmpty_iff_forall_not_mem] at hnone
    have hfirst : ¬ (0 : Int) < values.length := fun hlt => hnone 0 ((hmem 0).mpr ⟨Int.le_refl 0, hlt⟩)
    omega

end Advent.Intcode.Memory
