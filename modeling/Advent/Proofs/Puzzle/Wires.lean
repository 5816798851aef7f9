/-
The best crossing is the same for both wires.

Only the first wire is indexed, and by its first visits alone; the second is followed from
start to end.  What is found is nevertheless a minimum over all pairs of steps that end on
one position, for a later visit of the first wire only takes more steps.  So which wire
comes first does not matter.
-/
import Mathlib.Data.Nat.Find
import Mathlib.Order.Bounds.Basic
import Advent.Puzzle.Wires

namespace Advent.Puzzle.Wires

open Advent.Grid

/-! ### Steps of a walk -/

/-- Step number `i` of a walk, counted from one, ends on `c`. -/
def StepsOn (walk : List Coord) (i : Nat) (c : Coord) : Prop := 1 ≤ i ∧ walk[i - 1]? = some c

theorem mem_zipIdx_iff {walk : List Coord} {c : Coord} {i : Nat} :
    (c, i) ∈ walk.zipIdx 1 ↔ StepsOn walk i c :=
  List.mk_mem_zipIdx_iff_le_and_getElem?_sub

theorem mem_iff_stepsOn {walk : List Coord} {c : Coord} : c ∈ walk ↔ ∃ i, StepsOn walk i c := by
  rw [List.mem_iff_getElem?]
  refine ⟨?_, ?_⟩
  · rintro ⟨i, hi⟩
    exact ⟨i + 1, Nat.le_add_left 1 i, hi⟩
  · rintro ⟨i, -, hi⟩
    exact ⟨i - 1, hi⟩

/-- An entry that was there stays, and a new one is the number of the first step on its
position. -/
theorem getElem?_foldl_insertIfNew (c : Coord) :
    ∀ (walk : List Coord) (start : Nat) (visits : Std.HashMap Coord Nat),
      ((walk.zipIdx start).foldl (fun visits (c, step) => visits.insertIfNew c step) visits)[c]? =
        visits[c]?.or ((walk.idxOf? c).map (· + start)) := by
  intro walk
  induction walk with
  | nil => intro start visits; simp
  | cons head walk ih =>
      intro start visits
      rw [List.zipIdx_cons, List.foldl_cons, ih, Std.HashMap.getElem?_insertIfNew,
        List.idxOf?_cons]
      by_cases hhead : head = c
      · subst hhead
        by_cases hmem : head ∈ visits <;> simp [hmem]
      · simp [hhead, Option.map_map, Function.comp_def, Nat.add_assoc, Nat.add_comm 1 start]

/-- **A position is entered under the least step that ends on it.** -/
theorem getElem?_firstVisits {walk : List Coord} {c : Coord} {first : Nat} :
    (firstVisits walk)[c]? = some first ↔ IsLeast {i | StepsOn walk i c} first := by
  rw [firstVisits, getElem?_foldl_insertIfNew, Std.HashMap.getElem?_empty, Option.none_or,
    Option.map_eq_some_iff]
  refine ⟨?_, ?_⟩
  · rintro ⟨i, hi, rfl⟩
    obtain ⟨hlt, hc, hbefore⟩ := List.idxOf?_eq_some_iff.mp hi
    refine ⟨⟨Nat.le_add_left 1 i, List.getElem?_eq_some_iff.mpr ⟨hlt, hc⟩⟩, ?_⟩
    rintro j ⟨hj, hat⟩
    obtain ⟨hjlt, hjc⟩ := List.getElem?_eq_some_iff.mp hat
    by_contra hless
    exact hbefore (j - 1) (by omega) hjc
  · rintro ⟨⟨hfirst, hat⟩, hleast⟩
    obtain ⟨hlt, hc⟩ := List.getElem?_eq_some_iff.mp hat
    refine ⟨first - 1, List.idxOf?_eq_some_iff.mpr ⟨hlt, hc, fun j hj hjc => ?_⟩, by omega⟩
    have hvisit : StepsOn walk (j + 1) c :=
      ⟨Nat.le_add_left 1 j, List.getElem?_eq_some_iff.mpr ⟨by omega, hjc⟩⟩
    have := hleast hvisit
    omega

/-! ### Crossings

The index holds the first visits of the first wire only.  That loses crossings with more steps, and
it loses no position, so neither minimum is affected.
-/

/-- The distances of the positions that both walks step on. -/
def distances (a b : Path) : Set Nat :=
  {n | ∃ c, c ∈ a.walk ∧ c ∈ b.walk ∧ n = c.x.natAbs + c.y.natAbs}

/-- The steps along both wires, for all pairs of steps that end on one position. -/
def totals (a b : Path) : Set Nat :=
  {n | ∃ i j c, StepsOn a.walk i c ∧ StepsOn b.walk j c ∧ n = i + j}

theorem distances_comm (a b : Path) : distances a b = distances b a := by
  ext n
  exact ⟨fun ⟨c, ha, hb, hn⟩ => ⟨c, hb, ha, hn⟩, fun ⟨c, hb, ha, hn⟩ => ⟨c, ha, hb, hn⟩⟩

theorem totals_comm (a b : Path) : totals a b = totals b a := by
  ext n
  refine ⟨?_, ?_⟩
  · rintro ⟨i, j, c, ha, hb, rfl⟩
    exact ⟨j, i, c, hb, ha, Nat.add_comm i j⟩
  · rintro ⟨j, i, c, hb, ha, rfl⟩
    exact ⟨i, j, c, ha, hb, Nat.add_comm j i⟩

/-- A crossing is a position on both walks, with the least steps on the first and any on the second.
-/
theorem mem_crossings {a b : Path} {c : Coord} {n : Nat} :
    (c, n) ∈ crossings a b ↔
      ∃ first j, IsLeast {i | StepsOn a.walk i c} first ∧ StepsOn b.walk j c ∧ n = first + j := by
  simp only [crossings, List.mem_filterMap, Prod.exists, Option.map_eq_some_iff, Prod.mk.injEq,
    getElem?_firstVisits, mem_zipIdx_iff]
  refine ⟨?_, ?_⟩
  · rintro ⟨c', j, hj, first, hfirst, rfl, rfl⟩
    exact ⟨first, j, hfirst, hj, rfl⟩
  · rintro ⟨first, j, hfirst, hj, rfl⟩
    exact ⟨c, j, hj, first, hfirst, rfl, rfl⟩

/-- For any two steps onto one position there is a crossing that takes no more. -/
theorem crossing_of_stepsOn {a b : Path} {c : Coord} {i j : Nat} (hi : StepsOn a.walk i c)
    (hj : StepsOn b.walk j c) : ∃ n, (c, n) ∈ crossings a b ∧ n ≤ i + j := by
  classical
  have hvisited : ∃ i, StepsOn a.walk i c := ⟨i, hi⟩
  refine ⟨Nat.find hvisited + j, mem_crossings.mpr ⟨_, j, ⟨Nat.find_spec hvisited, ?_⟩, hj, rfl⟩, ?_⟩
  · exact fun _ => Nat.find_min' hvisited
  · exact Nat.add_le_add_right (Nat.find_min' hvisited hi) j

theorem crossings_eq_nil_iff (a b : Path) :
    crossings a b = [] ↔ ∀ c ∈ a.walk, c ∉ b.walk := by
  rw [List.eq_nil_iff_forall_not_mem]
  refine ⟨fun hnone c ha hb => ?_, ?_⟩
  · obtain ⟨i, hi⟩ := mem_iff_stepsOn.mp ha
    obtain ⟨j, hj⟩ := mem_iff_stepsOn.mp hb
    obtain ⟨n, hmem, -⟩ := crossing_of_stepsOn hi hj
    exact hnone _ hmem
  · rintro hapart ⟨c, n⟩ hmem
    obtain ⟨first, j, hfirst, hj, -⟩ := mem_crossings.mp hmem
    exact hapart c (mem_iff_stepsOn.mpr ⟨first, hfirst.1⟩) (mem_iff_stepsOn.mpr ⟨j, hj⟩)

/-- The least distance among the crossings is that of all common positions. -/
theorem min?_distance_iff (a b : Path) (d : Nat) :
    ((crossings a b).map fun (c, _) => c.norm).min? = some d ↔ IsLeast (distances a b) d := by
  have hsame : ∀ n, n ∈ (crossings a b).map (fun (c, _) => c.norm) ↔ n ∈ distances a b := by
    intro n
    simp only [List.mem_map, Prod.exists, mem_crossings]
    refine ⟨?_, ?_⟩
    · rintro ⟨c, -, ⟨first, j, hfirst, hj, -⟩, rfl⟩
      exact ⟨c, mem_iff_stepsOn.mpr ⟨first, hfirst.1⟩, mem_iff_stepsOn.mpr ⟨j, hj⟩, rfl⟩
    · rintro ⟨c, ha, hb, rfl⟩
      obtain ⟨i, hi⟩ := mem_iff_stepsOn.mp ha
      obtain ⟨j, hj⟩ := mem_iff_stepsOn.mp hb
      obtain ⟨n, hmem, -⟩ := crossing_of_stepsOn hi hj
      exact ⟨c, n, mem_crossings.mp hmem, rfl⟩
  rw [List.min?_eq_some_iff, hsame]
  exact and_congr_right fun _ => forall_congr' fun n => by rw [hsame]

/-- The least number of steps among the crossings is that of all pairs of steps. -/
theorem min?_total_iff (a b : Path) (s : Nat) :
    ((crossings a b).map Prod.snd).min? = some s ↔ IsLeast (totals a b) s := by
  have htotal : ∀ n ∈ (crossings a b).map Prod.snd, n ∈ totals a b := by
    intro n hn
    obtain ⟨⟨c, n'⟩, hmem, rfl⟩ := List.mem_map.mp hn
    obtain ⟨first, j, hfirst, hj, htotal⟩ := mem_crossings.mp hmem
    exact ⟨first, j, c, hfirst.1, hj, htotal⟩
  have hbelow : ∀ t ∈ totals a b, ∃ n ∈ (crossings a b).map Prod.snd, n ≤ t := by
    rintro t ⟨i, j, c, hi, hj, rfl⟩
    obtain ⟨n, hmem, hle⟩ := crossing_of_stepsOn hi hj
    exact ⟨n, List.mem_map.mpr ⟨_, hmem, rfl⟩, hle⟩
  rw [List.min?_eq_some_iff]
  refine ⟨?_, ?_⟩
  · rintro ⟨hmem, hle⟩
    refine ⟨htotal s hmem, fun t ht => ?_⟩
    obtain ⟨n, hn, hnt⟩ := hbelow t ht
    exact Nat.le_trans (hle n hn) hnt
  · rintro ⟨hs, hleast⟩
    obtain ⟨n, hn, hns⟩ := hbelow s hs
    have hsn : s ≤ n := hleast (htotal n hn)
    rw [Nat.le_antisymm hsn hns]
    exact ⟨hn, fun m hm => Nat.le_trans hns (hleast (htotal m hm))⟩

/-! ### The answer -/

theorem solve_error_iff (a b : Path) (fault : Fault) :
    solve a b = .error fault ↔ fault = .noCrossing ∧ ∀ c ∈ a.walk, c ∉ b.walk := by
  rw [← crossings_eq_nil_iff, solve]
  rcases hfound : crossings a b with _ | ⟨x, rest⟩
  · simp [Fault.raise, Fault.reported, Fault.integers, eq_comm]
  · simp [List.min?]

theorem solve_ok_iff (a b : Path) (d s : Nat) :
    solve a b = .ok (d, s) ↔ IsLeast (distances a b) d ∧ IsLeast (totals a b) s := by
  rw [← min?_distance_iff, ← min?_total_iff, solve]
  split
  · rename_i distance steps hdistance hsteps
    simp [hdistance, hsteps]
  · rename_i hnone
    refine ⟨fun h => ?_, fun h => absurd h.2 (hnone d s h.1)⟩
    cases h

/--
**The nearest crossing and the shortest one are minima over both wires alike.**  There is no
answer exactly when no position is stepped on by both walks.  Otherwise it is the least
distance of such a position, and the least sum of a step of one walk and a step of the other
that end on the same position, whether or not either wire was there before.  So the two wires
may be exchanged.
-/
theorem solve_optimum (a b : Path) :
    (∀ fault, solve a b = .error fault ↔ fault = .noCrossing ∧ ∀ c ∈ a.walk, c ∉ b.walk) ∧
    (∀ d s, solve a b = .ok (d, s) ↔ IsLeast (distances a b) d ∧ IsLeast (totals a b) s) ∧
    solve a b = solve b a := by
  refine ⟨solve_error_iff a b, solve_ok_iff a b, ?_⟩
  rcases hsolve : solve a b with fault | ⟨d, s⟩
  · obtain ⟨rfl, hapart⟩ := (solve_error_iff a b fault).mp hsolve
    exact ((solve_error_iff b a _).mpr ⟨rfl, fun c hb ha => hapart c ha hb⟩).symm
  · obtain ⟨hd, hs⟩ := (solve_ok_iff a b d s).mp hsolve
    refine ((solve_ok_iff b a d s).mpr ⟨?_, ?_⟩).symm
    · rwa [distances_comm]
    · rwa [totals_comm]

end Advent.Puzzle.Wires
