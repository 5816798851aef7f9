/-
How far the extent follows the writes.

A memory keeps its extent beside its cells and raises it as it is written to, while a copy
takes the extent from the cells again.  Both are meant to be one past the highest address
that was loaded or written.  Writing only ever raises the extent, though, and that of an
empty memory is zero, which is past the highest address already when only addresses below
-1 are written.  `extent_putAll_iff` says that there is no other way for the two to part.
-/
import Advent.Proofs.Intcode.Memory

namespace Advent.Intcode.Memory

/-- The address is that of a loaded cell or of a write. -/
def Touched (cells : Std.TreeMap Int Int) (writes : List (Int × Int)) (a : Int) : Prop :=
  a ∈ cells ∨ ∃ w ∈ writes, w.1 = a

/-- Something was loaded, or nothing was written, or something was written at -1 or above. -/
def Tracked (cells : Std.TreeMap Int Int) (writes : List (Int × Int)) : Prop :=
  (∃ a, a ∈ cells) ∨ writes = [] ∨ ∃ w ∈ writes, -1 ≤ w.1

/-! ### The two extents

The extent that is kept is the old one or one past a write, while that of a copy is taken from the
cells and is always the right one.  So the two agree unless the old one was zero, there was no cell
to account for it, and no write reached it.
-/

theorem extent_putAll_cases (writes : List (Int × Int)) :
    ∀ m : Memory, (m.putAll writes).extent = m.extent ∨
      ∃ w ∈ writes, (m.putAll writes).extent = w.1 + 1 := by
  induction writes with
  | nil => intro m; exact Or.inl rfl
  | cons w rest ih =>
      intro m
      have hcons : m.putAll (w :: rest) = (m.put w.1 w.2).putAll rest := rfl
      rw [hcons]
      rcases ih (m.put w.1 w.2) with hput | ⟨w', hw', hlater⟩
      · rw [hput, extent_put]
        rcases Int.le_total m.extent (w.1 + 1) with hle | hle
        · exact Or.inr ⟨w, List.mem_cons_self, Int.max_eq_right hle⟩
        · exact Or.inl (Int.max_eq_left hle)
      · exact Or.inr ⟨w', List.mem_cons_of_mem w hw', hlater⟩

theorem extent_ofMap_of_empty {cells : Std.TreeMap Int Int} (h : ¬ ∃ a, a ∈ cells) :
    (ofMap cells).extent = 0 := by
  rcases extentOf_isExtentOf cells with ⟨hzero, -⟩ | ⟨hlast, -⟩
  · exact hzero
  · exact absurd ⟨_, hlast⟩ h

section

variable (cells : Std.TreeMap Int Int) (writes : List (Int × Int))

theorem lt_extent_of_touched {a : Int} (h : Touched cells writes a) :
    a < ((ofMap cells).putAll writes).extent :=
  (putAll_wf writes (ofMap_wf cells)).lt_extent a ((mem_putAll writes (ofMap cells) a).mpr h)

/-- The extent of a copy is always that of the addresses loaded or written. -/
theorem extent_copy_putAll :
    IsExtentOf ((ofMap cells).putAll writes).copy.extent (Touched cells writes) := by
  have htouched : Touched cells writes = (· ∈ ((ofMap cells).putAll writes).cells) :=
    funext fun a => propext (mem_putAll writes (ofMap cells) a).symm
  rw [htouched]
  exact extentOf_isExtentOf ((ofMap cells).putAll writes).cells

/-- Writes below -1 alone leave the extent of an empty memory at zero. -/
theorem extent_of_not_tracked (h : ¬ Tracked cells writes) :
    ((ofMap cells).putAll writes).extent = 0 := by
  have hzero := extent_ofMap_of_empty fun hcells => h (Or.inl hcells)
  have hle := extent_le_putAll writes (ofMap cells)
  rcases extent_putAll_cases writes (ofMap cells) with hloaded | ⟨w, hw, hwritten⟩
  · exact hloaded.trans hzero
  · have hlow : ¬ -1 ≤ w.1 := fun hle => h (Or.inr (Or.inr ⟨w, hw, hle⟩))
    omega

theorem isExtentOf_of_tracked (h : Tracked cells writes) :
    IsExtentOf ((ofMap cells).putAll writes).extent (Touched cells writes) := by
  have hbelow := fun a => lt_extent_of_touched (a := a) cells writes
  rcases extent_putAll_cases writes (ofMap cells) with hloaded | ⟨w, hw, hwritten⟩
  · replace hloaded : ((ofMap cells).putAll writes).extent = extentOf cells := hloaded
    rcases extentOf_isExtentOf cells with ⟨hzero, hnone⟩ | ⟨hlast, -⟩
    · rcases h with ⟨a, ha⟩ | rfl | ⟨w, hw, hlow⟩
      · exact absurd ha (hnone a)
      · exact Or.inl ⟨hloaded.trans hzero, fun a => by simp [Touched, hnone a]⟩
      · -- the one address at -1 or above that leaves the extent at zero
        have hhigh := hbelow w.1 (Or.inr ⟨w, hw, rfl⟩)
        exact Or.inr ⟨Or.inr ⟨w, hw, by omega⟩, hbelow⟩
    · exact Or.inr ⟨Or.inl (hloaded ▸ hlast), hbelow⟩
  · exact Or.inr ⟨Or.inr ⟨w, hw, by omega⟩, hbelow⟩

theorem tracked_of_isExtentOf
    (h : IsExtentOf ((ofMap cells).putAll writes).extent (Touched cells writes)) :
    Tracked cells writes := by
  by_cases hcells : ∃ a, a ∈ cells
  · exact Or.inl hcells
  rcases h with ⟨-, hnone⟩ | ⟨hloaded | ⟨w, hw, hlast⟩, -⟩
  · refine Or.inr (Or.inl (List.eq_nil_iff_forall_not_mem.mpr fun w hw => ?_))
    exact hnone w.1 (Or.inr ⟨w, hw, rfl⟩)
  · exact absurd ⟨_, hloaded⟩ hcells
  · have hzero := extent_ofMap_of_empty hcells
    have hle := extent_le_putAll writes (ofMap cells)
    exact Or.inr (Or.inr ⟨w, hw, by omega⟩)

/--
**The extent is one past the highest address that was loaded or written, unless only
addresses below -1 were written to an empty memory.**  In that case it stays zero.  A copy
always has the extent that its cells call for, so it has the same extent in just the other
cases; it gives the same value to every address and equals the memory in all of them.
-/
theorem extent_putAll_iff :
    (IsExtentOf ((ofMap cells).putAll writes).extent (Touched cells writes) ↔ Tracked cells writes) ∧
    (Tracked cells writes ∨ ((ofMap cells).putAll writes).extent = 0) ∧
    IsExtentOf ((ofMap cells).putAll writes).copy.extent (Touched cells writes) ∧
    (((ofMap cells).putAll writes).copy.extent = ((ofMap cells).putAll writes).extent ↔
      Tracked cells writes) ∧
    (∀ a, ((ofMap cells).putAll writes).copy.get a = ((ofMap cells).putAll writes).get a) ∧
    (((ofMap cells).putAll writes).copy == (ofMap cells).putAll writes) = true := by
  have hiff : IsExtentOf ((ofMap cells).putAll writes).extent (Touched cells writes) ↔
      Tracked cells writes := ⟨tracked_of_isExtentOf cells writes, isExtentOf_of_tracked cells writes⟩
  have hcopy := extent_copy_putAll cells writes
  have hzero := (Classical.em (Tracked cells writes)).imp_right (extent_of_not_tracked cells writes)
  refine ⟨hiff, hzero, hcopy, ?_, fun a => rfl, (beq_iff _ _).mpr fun a => rfl⟩
  rw [← hiff]
  exact ⟨fun heq => heq ▸ hcopy, hcopy.unique⟩

end

/-- A write below -1 to an empty memory leaves an extent that no write or cell accounts for, and
that a copy does not take over. -/
theorem put_below_extent_zero :
    ((ofMap ∅).putAll [(-5, 1)]).extent = 0 ∧
      ¬ IsExtentOf ((ofMap ∅).putAll [(-5, 1)]).extent (Touched ∅ [(-5, 1)]) ∧
      IsExtentOf (-4) (Touched ∅ [(-5, 1)]) ∧
      ((ofMap ∅).putAll [(-5, 1)]).copy.extent = -4 := by
  have hextent : ((ofMap ∅).putAll [(-5, 1)]).extent = 0 := by cbv
  have htouched : ∀ a, Touched ∅ [(-5, 1)] a ↔ a = -5 := fun a => by simp [Touched, eq_comm]
  refine ⟨hextent, ?_, Or.inr ⟨(htouched _).mpr rfl, fun a ha => ?_⟩, by cbv⟩
  · rw [hextent]
    rintro (⟨-, hnone⟩ | ⟨hlast, -⟩)
    · exact hnone (-5) ((htouched _).mpr rfl)
    · exact absurd ((htouched _).mp hlast) (by decide)
  · rw [(htouched a).mp ha]
    decide

end Advent.Intcode.Memory
