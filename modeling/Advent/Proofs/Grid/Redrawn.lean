/-
Paths drawn in another way.

A path can be turned and reflected, which moves its walk as a whole and keeps every position as
far from the origin as it was.  And it can be cut into other runs: a run is two consecutive runs
of its heading that are together as long, and a run of length zero is no run at all.  That
changes nothing about the walk.
-/
import Mathlib.Logic.Function.Iterate
import Mathlib.Logic.Relation
import Advent.Proofs.Grid.Walk

namespace Advent.Grid

/-! ### Symmetries of the square

The four headings can be turned by quarters and reflected.  Each such change of the headings is that
of a map of the grid, put together from two: a quarter turn and one reflection.
-/

namespace Heading

/-- The next heading clockwise. -/
def turned : Heading → Heading
  | up => right
  | right => down
  | down => left
  | left => up

/-- The heading in a mirror that leaves up and down as they are. -/
def mirrored : Heading → Heading
  | up => up
  | right => left
  | down => down
  | left => right

/-- One of the eight symmetries of the square: none to three quarter turns, without a reflection
or after one. -/
inductive Symmetry : (Heading → Heading) → Prop where
  | rotation (k : Fin 4) : Symmetry turned^[k]
  | reflection (k : Fin 4) : Symmetry (turned^[k] ∘ mirrored)

end Heading

namespace Path

/-- A map of the grid onto itself that takes the headings to others and keeps all distances from
the origin. -/
structure Isometry (f : Coord → Coord) (σ : Heading → Heading) : Prop where
  carries : Carries f σ
  injective : Function.Injective f
  origin : f .origin = .origin
  norm : ∀ c, (f c).norm = c.norm

namespace Isometry

variable {f g : Coord → Coord} {σ τ : Heading → Heading}

theorem id : Isometry id id where
  carries _ _ _ := rfl
  injective := Function.injective_id
  origin := rfl
  norm _ := rfl

theorem comp (hf : Isometry f σ) (hg : Isometry g τ) : Isometry (f ∘ g) (σ ∘ τ) where
  carries c h n := (congrArg f (hg.carries c h n)).trans (hf.carries (g c) (τ h) n)
  injective := hf.injective.comp hg.injective
  origin := (congrArg f hg.origin).trans hf.origin
  norm c := (hf.norm (g c)).trans (hg.norm c)

theorem iterate (hf : Isometry f σ) (k : Nat) : Isometry f^[k] σ^[k] := by
  induction k with
  | zero => exact id
  | succ k ih => exact ih.comp hf

theorem turned : Isometry (fun c => ⟨c.y, -c.x⟩) Heading.turned where
  carries c h n := by
    cases h <;> simp only [Coord.offset, Heading.turned, Coord.mk.injEq, true_and] <;> omega
  injective c d h := by
    simp only [Coord.mk.injEq] at h
    ext <;> omega
  origin := rfl
  norm c := by simp only [Coord.norm]; omega

theorem mirrored : Isometry (fun c => ⟨-c.x, c.y⟩) Heading.mirrored where
  carries c h n := by
    cases h <;> simp only [Coord.offset, Heading.mirrored, Coord.mk.injEq, and_true] <;> omega
  injective c d h := by
    simp only [Coord.mk.injEq] at h
    ext <;> omega
  origin := rfl
  norm c := by simp only [Coord.norm]; omega

/-- **Every symmetry of the headings is that of an isometry.** -/
theorem of_symmetry (hσ : Heading.Symmetry σ) : ∃ f, Isometry f σ := by
  cases hσ with
  | rotation k => exact ⟨_, turned.iterate k⟩
  | reflection k => exact ⟨_, (turned.iterate k).comp mirrored⟩

/-- The walk of a path with other headings is the walk of the path, moved. -/
theorem walk_reorient (hf : Isometry f σ) (p : Path) : (p.reorient σ).walk = p.walk.map f := by
  rw [walk, walk, map_walkFrom hf.carries, hf.origin]

end Isometry

/-! ### Other runs for the same walk -/

/-- One run is made two, or an empty run is put in. -/
inductive Recut : Path → Path → Prop where
  | split (before after : Path) (h : Heading) {m n : Int} (hm : 0 ≤ m) (hn : 0 ≤ n) :
      Recut (before ++ ⟨h, m + n⟩ :: after) (before ++ ⟨h, m⟩ :: ⟨h, n⟩ :: after)
  | insert (before after : Path) (h : Heading) :
      Recut (before ++ after) (before ++ ⟨h, 0⟩ :: after)

theorem stepsOf_add (c : Coord) (h : Heading) {m n : Int} (hm : 0 ≤ m) (hn : 0 ≤ n) :
    stepsOf c ⟨h, m + n⟩ = stepsOf c ⟨h, m⟩ ++ stepsOf (c.offset ⟨h, m⟩) ⟨h, n⟩ := by
  simp only [stepsOf, Run.resize]
  rw [Int.toNat_add hm hn, List.range_add, List.map_append, List.map_map]
  congr 1
  refine List.map_congr_left fun i _ => ?_
  rw [Function.comp_apply, Coord.offset_offset, Int.natCast_add, Int.toNat_of_nonneg hm, Int.add_assoc]

/-- Cutting a run in two does not change the walk from anywhere. -/
theorem Recut.walkFrom_eq {p q : Path} (h : Recut p q) (o : Coord) : p.walkFrom o = q.walkFrom o := by
  cases h with
  | split before after h hm hn =>
      simp only [walkFrom_append, walkFrom, stepsOf_add _ h hm hn, Coord.offset_offset,
        List.append_assoc]
  | insert before after h =>
      simp only [walkFrom_append, walkFrom, Coord.offset_zero]
      rfl

/-- **Cutting a path into other runs does not change its walk.** -/
theorem walk_eq_of_recut {p q : Path} (h : Relation.EqvGen Recut p q) : p.walk = q.walk := by
  induction h with
  | rel p q h => exact h.walkFrom_eq .origin
  | refl p => rfl
  | symm p q _ ih => exact ih.symm
  | trans p q r _ _ ih ih' => exact ih.trans ih'

end Path

end Advent.Grid
