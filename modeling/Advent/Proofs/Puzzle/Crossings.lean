/-
What the grid says about crossings.

A step leads one further from the origin or one nearer to it.  So the number of steps to a
position is its distance from the origin and twice a detour (`StepsOn.exists_detour`), and the
steps along both wires to a crossing are even and at least twice its distance.

How the wires are drawn does not matter.  A map of the grid onto itself that keeps distances
takes the crossings of two wires to those of the wires moved by it, each with the same number of
steps (`crossings_map`), and the crossings know of the runs of a wire only what its walk shows.
-/
import Mathlib.Algebra.Group.Even
import Advent.Proofs.Grid.Redrawn
import Advent.Proofs.Puzzle.Wires

namespace Advent.Puzzle.Wires

open Advent.Grid

variable {a a' b b' p : Path}

/-! ### Crossings by search

The index of first visits answers what a search for the position in the first walk would find.
-/

/-- The crossings without the index of first visits. -/
theorem crossings_eq (a b : Path) :
    crossings a b = (b.walk.zipIdx 1).filterMap fun (c, step) =>
      (a.walk.idxOf? c).map fun i => (c, i + 1 + step) := by
  simp only [crossings, firstVisits, getElem?_foldl_insertIfNew, Std.HashMap.getElem?_empty,
    Option.none_or, Option.map_map]
  rfl

/-! ### Steps and distances

Every step that does not lead away from the origin leads back, and each that leads back takes
another one to make up for it.  So the steps to a crossing exceed its distance by an even number.
-/

/-- The steps to a position are its distance and twice a detour. -/
theorem StepsOn.exists_detour {i : Nat} {c : Coord} (hp : ∀ r ∈ p, 0 ≤ r.length)
    (h : StepsOn p.walk i c) : ∃ k, i = c.norm + 2 * k := by
  obtain ⟨hi, hc⟩ := h
  obtain ⟨n, rfl⟩ := Nat.exists_eq_add_of_le' hi
  have hat : (Coord.origin :: p.walkFrom .origin)[n + 1]? = some c := hc
  rw [Path.cons_walkFrom hp, List.getElem?_scanl] at hat
  split at hat
  · rename_i hle
    obtain ⟨k, hk⟩ := Coord.exists_detour (p.headings.take (n + 1)) .origin
    rw [Option.some.inj hat, List.length_take, Nat.min_eq_left hle] at hk
    exact ⟨k, (Nat.zero_add (n + 1)).symm.trans hk⟩
  · cases hat

/--
**The best number of steps is even, and at least twice the best distance.**  The two may belong
to different crossings.
-/
theorem even_and_twice_distance_le (a b : Path) (ha : ∀ r ∈ a, 0 ≤ r.length)
    (hb : ∀ r ∈ b, 0 ≤ r.length) (d s : Nat) (h : solve a b = .ok (d, s)) :
    Even s ∧ 2 * d ≤ s := by
  obtain ⟨hd, ⟨i, j, c, hi, hj, rfl⟩, -⟩ := (solve_ok_iff a b d s).mp h
  have hnearest : d ≤ c.norm :=
    hd.2 ⟨c, mem_iff_stepsOn.mpr ⟨i, hi⟩, mem_iff_stepsOn.mpr ⟨j, hj⟩, rfl⟩
  -- both wires come to the crossing with a detour of their own
  obtain ⟨k, rfl⟩ := hi.exists_detour ha
  obtain ⟨l, rfl⟩ := hj.exists_detour hb
  exact ⟨⟨c.norm + k + l, by omega⟩, by omega⟩

/-- The nearer crossing is at distance 6, the one of 30 steps at distance 11. -/
theorem shortest_crossing_is_not_the_nearest :
    let a : Path := [⟨.right, 8⟩, ⟨.up, 5⟩, ⟨.left, 5⟩, ⟨.down, 3⟩]
    let b : Path := [⟨.up, 7⟩, ⟨.right, 6⟩, ⟨.down, 4⟩, ⟨.left, 4⟩]
    (∀ r ∈ a, 0 ≤ r.length) ∧ (∀ r ∈ b, 0 ≤ r.length) ∧ solve a b = .ok (6, 30) ∧
      Even 30 ∧ 2 * 6 ≤ 30 := by
  intro a b
  have ha : ∀ r ∈ a, 0 ≤ r.length := by decide
  have hb : ∀ r ∈ b, 0 ≤ r.length := by decide
  have hfound : crossings a b = [(⟨6, 5⟩, 30), (⟨3, 3⟩, 40)] := by
    rw [crossings_eq]
    decide
  have hsolve : solve a b = .ok (6, 30) := by
    rw [solve, hfound]
    rfl
  exact ⟨ha, hb, hsolve, even_and_twice_distance_le a b ha hb 6 30 hsolve⟩

/-! ### Wires drawn in another way -/

theorem idxOf?_map {f : Coord → Coord} (hf : Function.Injective f) (walk : List Coord) (c : Coord) :
    (walk.map f).idxOf? (f c) = walk.idxOf? c := by
  induction walk with
  | nil => rfl
  | cons head walk ih => simp only [List.map_cons, List.idxOf?_cons, beq_iff_eq, hf.eq_iff, ih]

theorem crossings_map {f : Coord → Coord} (hf : Function.Injective f)
    (ha : a'.walk = a.walk.map f) (hb : b'.walk = b.walk.map f) :
    crossings a' b' = (crossings a b).map fun (c, n) => (f c, n) := by
  rw [crossings_eq, crossings_eq, ha, hb, List.zipIdx_map, List.filterMap_map, List.map_filterMap]
  congr 1
  funext ⟨c, step⟩
  simp only [Function.comp_apply, Prod.map_apply, id_eq, idxOf?_map hf, Option.map_map]
  rfl

theorem solve_eq_of_walks {f : Coord → Coord} (hf : Function.Injective f)
    (hnorm : ∀ c, (f c).norm = c.norm) (ha : a'.walk = a.walk.map f) (hb : b'.walk = b.walk.map f) :
    solve a' b' = solve a b := by
  have hdistances : ((crossings a' b').map fun (c, _) => c.norm) =
      (crossings a b).map fun (c, _) => c.norm := by
    rw [crossings_map hf ha hb, List.map_map]
    exact List.map_congr_left fun x _ => hnorm x.1
  have hsteps : (crossings a' b').map Prod.snd = (crossings a b).map Prod.snd := by
    rw [crossings_map hf ha hb, List.map_map]
    rfl
  simp only [solve, hdistances, hsteps]

/--
**The answer does not depend on how the wires are drawn.**  It stays the same, or stays missing,
when both wires are turned or reflected alike, and when runs of either wire are cut in two, put
together, or put in or left out because they are empty.
-/
theorem solve_of_redrawn :
    (∀ σ, Heading.Symmetry σ → ∀ a b : Path, solve (a.reorient σ) (b.reorient σ) = solve a b) ∧
    ∀ a a' b b' : Path, Relation.EqvGen Path.Recut a a' → Relation.EqvGen Path.Recut b b' →
      solve a' b' = solve a b := by
  refine ⟨fun σ hσ a b => ?_, fun a a' b b' ha hb => ?_⟩
  · obtain ⟨f, hf⟩ := Path.Isometry.of_symmetry hσ
    exact solve_eq_of_walks hf.injective hf.norm (hf.walk_reorient a) (hf.walk_reorient b)
  · have hsame : ∀ {p q : Path}, Relation.EqvGen Path.Recut p q → q.walk = p.walk.map id := by
      intro p q h
      rw [List.map_id, Path.walk_eq_of_recut h]
    exact solve_eq_of_walks Function.injective_id (fun _ => rfl) (hsame ha) (hsame hb)

/-- Two wires reflected and turned, and the same wires with one run cut after an empty one and with
two runs put together. -/
theorem wires_redrawn_twice :
    let a : Path := [⟨.right, 3⟩]
    let a' : Path := [⟨.up, 0⟩, ⟨.right, 1⟩, ⟨.right, 2⟩]
    let b : Path := [⟨.up, 1⟩, ⟨.right, 1⟩, ⟨.right, 1⟩, ⟨.down, 1⟩]
    let b' : Path := [⟨.up, 1⟩, ⟨.right, 2⟩, ⟨.down, 1⟩]
    (Heading.Symmetry (Heading.turned ∘ Heading.mirrored) ∧
      Relation.EqvGen Path.Recut a a' ∧ Relation.EqvGen Path.Recut b b') ∧
    solve [⟨.up, 3⟩] [⟨.right, 1⟩, ⟨.up, 1⟩, ⟨.up, 1⟩, ⟨.left, 1⟩] = solve a b ∧
    solve a' b' = solve a b := by
  intro a a' b b'
  have hσ : Heading.Symmetry (Heading.turned ∘ Heading.mirrored) := .reflection 1
  have ha : Relation.EqvGen Path.Recut a a' :=
    .trans _ _ _ (.rel _ _ (.insert [] a .up))
      (.rel _ _ (.split [⟨.up, 0⟩] [] .right (m := 1) (n := 2) (by decide) (by decide)))
  have hb : Relation.EqvGen Path.Recut b b' :=
    .symm _ _ (.rel _ _ (.split [⟨.up, 1⟩] [⟨.down, 1⟩] .right (m := 1) (n := 1) (by decide) (by decide)))
  exact ⟨⟨hσ, ha, hb⟩, solve_of_redrawn.1 _ hσ a b, solve_of_redrawn.2 a a' b b' ha hb⟩

end Advent.Puzzle.Wires
