/-
A walk is made of unit steps.

A run of length `n` is `n` single steps in its heading, so a path of runs that are not negative
is the list of the headings of its steps, and its walk the positions that they lead through one
after another (`cons_walkFrom`).  How long a walk is, where it ends and how it goes on are then
facts about that list.

A walk looks at positions only through the steps that it takes from them.  A map of the grid that
takes steps to steps therefore takes walks to walks (`map_walkFrom`); a shift of the start is
such a map.
-/
import Mathlib.Algebra.Ring.Int.Defs
import Advent.Grid.Path

namespace Advent.Grid

attribute [ext] Coord

namespace Coord

/-! ### Positions added up -/

instance : Zero Coord := ⟨origin⟩

@[simp]
theorem add_x (a b : Coord) : (a + b).x = a.x + b.x := rfl

@[simp]
theorem add_y (a b : Coord) : (a + b).y = a.y + b.y := rfl

@[simp]
theorem zero_x : (0 : Coord).x = 0 := rfl

@[simp]
theorem zero_y : (0 : Coord).y = 0 := rfl

instance : AddCommMonoid Coord where
  add_assoc a b c := by ext <;> simp [Int.add_assoc]
  zero_add a := by ext <;> simp
  add_zero a := by ext <;> simp
  add_comm a b := by ext <;> simp [Int.add_comm]
  nsmul := nsmulRec

/-! ### Single steps -/

variable (c : Coord) (h : Heading)

/-- The next position in a heading. -/
def step : Coord := c.offset ⟨h, 1⟩

theorem offset_zero : c.offset ⟨h, 0⟩ = c := by
  cases h <;> simp [offset]

theorem offset_offset (m n : Int) : (c.offset ⟨h, m⟩).offset ⟨h, n⟩ = c.offset ⟨h, m + n⟩ := by
  cases h <;> simp only [offset, Coord.mk.injEq, true_and, and_true] <;> omega

theorem add_offset (v : Coord) (r : Run) : (v + c).offset r = v + c.offset r := by
  ext <;> cases hr : r.heading <;> simp [offset, hr] <;> omega

/-- A run moves every position by as much as it moves the origin. -/
theorem offset_eq_add (r : Run) : c.offset r = c + origin.offset r := by
  have hzero : c + origin = c := add_zero c
  rw [← add_offset, hzero]

theorem foldl_step_replicate (n : Nat) : (List.replicate n h).foldl step c = c.offset ⟨h, n⟩ := by
  induction n generalizing c with
  | zero => exact (c.offset_zero h).symm
  | succ n ih =>
      rw [List.replicate_succ, List.foldl_cons, ih, step, offset_offset, Int.add_comm]
      rfl

theorem distance_step : c.distance (c.step h) = 1 := by
  show (c.x - (c.step h).x).natAbs + (c.y - (c.step h).y).natAbs = 1
  cases h <;> simp only [step, offset] <;> omega

/-- A step leads one further away from the origin or one nearer to it. -/
theorem norm_step : (c.step h).norm = c.norm + 1 ∨ (c.step h).norm + 1 = c.norm := by
  cases h <;> simp only [step, offset, norm] <;> omega

/-- Steps lead from the origin as far as they are many, less two for each that leads back. -/
theorem exists_detour (hs : List Heading) (c : Coord) :
    ∃ k, c.norm + hs.length = (hs.foldl step c).norm + 2 * k := by
  induction hs generalizing c with
  | nil => exact ⟨0, rfl⟩
  | cons h hs ih =>
      obtain ⟨k, hk⟩ := ih (c.step h)
      rw [List.length_cons, List.foldl_cons]
      rcases c.norm_step h with hfurther | hnearer
      · exact ⟨k, by omega⟩
      · exact ⟨k + 1, by omega⟩

end Coord

namespace Path

variable {p : Path} {o : Coord}

/-! ### The steps of a path

A run that is not negative has as many steps as it is long.  One that were negative would have none,
which is why all that follows is about paths of runs that are not.
-/

/-- The heading of every step: that of each run, as often as the run is long. -/
def headings (p : Path) : List Heading :=
  p.flatMap fun r => List.replicate r.length.toNat r.heading

/-- Step number `n`, counted from zero, is one of the run `r`. -/
def IsStepOf (p : Path) (n : Nat) (r : Run) : Prop :=
  ∃ before after, p = before ++ r :: after ∧
    (before.map Run.length).sum ≤ n ∧ n < (before.map Run.length).sum + r.length

theorem headings_cons (r : Run) (p : Path) :
    headings (r :: p) = List.replicate r.length.toNat r.heading ++ headings p :=
  List.flatMap_cons

theorem length_headings (hp : ∀ r ∈ p, 0 ≤ r.length) :
    (p.headings.length : Int) = (p.map Run.length).sum := by
  induction p with
  | nil => rfl
  | cons r p ih =>
      obtain ⟨hr, hp⟩ := List.forall_mem_cons.mp hp
      rw [headings_cons, List.length_append, List.length_replicate, List.map_cons, List.sum_cons,
        ← ih hp, Int.natCast_add, Int.toNat_of_nonneg hr]

theorem isStepOf_of_getElem?_headings (hp : ∀ r ∈ p, 0 ≤ r.length) {n : Nat} {h : Heading}
    (hn : p.headings[n]? = some h) : ∃ r, p.IsStepOf n r ∧ r.heading = h := by
  induction p generalizing n with
  | nil => cases hn
  | cons r p ih =>
      obtain ⟨hr, hp⟩ := List.forall_mem_cons.mp hp
      rw [headings_cons, List.getElem?_append, List.length_replicate] at hn
      split at hn
      · rename_i hlt
        rw [List.getElem?_replicate, if_pos hlt, Option.some.injEq] at hn
        refine ⟨r, ⟨[], p, rfl, ?_, ?_⟩, hn⟩
        · exact Int.natCast_nonneg n
        · simp only [List.map_nil, List.sum_nil]
          omega
      · rename_i hle
        obtain ⟨r', ⟨before, after, rfl, hfrom, hto⟩, hheading⟩ := ih hp hn
        refine ⟨r', ⟨r :: before, after, rfl, ?_, ?_⟩, hheading⟩ <;>
          rw [List.map_cons, List.sum_cons] <;> omega

/-! ### The positions of a walk -/

theorem cons_stepsOf (start : Coord) (r : Run) :
    start :: stepsOf start r = (List.replicate r.length.toNat r.heading).scanl Coord.step start := by
  obtain ⟨h, n⟩ := r
  show start :: (List.range n.toNat).map (fun i : Nat => start.offset ⟨h, i + 1⟩) = _
  generalize n.toNat = n
  induction n generalizing start with
  | zero => rfl
  | succ n ih =>
      -- the first step comes off, and the others are a run that starts where it ends
      rw [List.replicate_succ, List.scanl_cons, ← ih, List.range_succ_eq_map, List.map_cons,
        List.map_map]
      congr 2
      refine List.map_congr_left fun i _ => ?_
      simp only [Function.comp_apply, Coord.step, Coord.offset_offset, Int.natCast_succ]
      rw [Int.add_comm]

/-- The position at the end of a path. -/
def endFrom (o : Coord) (p : Path) : Coord := p.foldl Coord.offset o

theorem foldl_step_headings (hp : ∀ r ∈ p, 0 ≤ r.length) (o : Coord) :
    p.headings.foldl Coord.step o = p.endFrom o := by
  induction p generalizing o with
  | nil => rfl
  | cons r p ih =>
      obtain ⟨hr, hp⟩ := List.forall_mem_cons.mp hp
      rw [headings_cons, List.foldl_append, Coord.foldl_step_replicate, Int.toNat_of_nonneg hr, ih hp]
      rfl

/-- **A walk leads through the positions that its single steps reach, one after another.** -/
theorem cons_walkFrom (hp : ∀ r ∈ p, 0 ≤ r.length) (o : Coord) :
    o :: p.walkFrom o = p.headings.scanl Coord.step o := by
  induction p generalizing o with
  | nil => rfl
  | cons r p ih =>
      obtain ⟨hr, hp⟩ := List.forall_mem_cons.mp hp
      have hend : (List.replicate r.length.toNat r.heading).foldl Coord.step o = o.offset r := by
        rw [Coord.foldl_step_replicate, Int.toNat_of_nonneg hr]
      -- the start of the rest is the end of the first run, and listed only once
      rw [headings_cons, List.scanl_append, ← cons_stepsOf, hend, ← ih hp]
      rfl

theorem length_walkFrom (hp : ∀ r ∈ p, 0 ≤ r.length) (o : Coord) :
    ((p.walkFrom o).length : Int) = (p.map Run.length).sum := by
  have hlength := congrArg List.length (cons_walkFrom hp o)
  rw [List.length_cons, List.length_scanl, Nat.add_right_cancel_iff] at hlength
  rw [hlength, length_headings hp]

theorem getLastD_walkFrom (hp : ∀ r ∈ p, 0 ≤ r.length) (o : Coord) :
    (p.walkFrom o).getLastD o = p.endFrom o := by
  have hlast := congrArg List.getLast? (cons_walkFrom hp o)
  rw [List.getLast?_cons, List.getLast?_scanl, Option.some.injEq, foldl_step_headings hp] at hlast
  rwa [List.getLastD_eq_getLast?]

/-- The end of a path is its start and all its runs added up. -/
theorem endFrom_eq_add_sum (o : Coord) (p : Path) :
    p.endFrom o = o + (p.map Coord.origin.offset).sum := by
  induction p generalizing o with
  | nil => exact (add_zero o).symm
  | cons r p ih =>
      have hrest : endFrom o (r :: p) = endFrom (o.offset r) p := rfl
      rw [hrest, ih, Coord.offset_eq_add, List.map_cons, List.sum_cons, add_assoc]

/-- What comes after a position of a walk is the next position in the heading of the run that the
step belongs to. -/
theorem step_of_getElem?_walkFrom (hp : ∀ r ∈ p, 0 ≤ r.length) {n : Nat} {c c' : Coord}
    (hc : (o :: p.walkFrom o)[n]? = some c) (hc' : (p.walkFrom o)[n]? = some c') :
    ∃ r, p.IsStepOf n r ∧ c' = c.step r.heading := by
  have hnext : (o :: p.walkFrom o)[n + 1]? = some c' := hc'
  rw [cons_walkFrom hp] at hc hnext
  rw [List.getElem?_succ_scanl, hc, Option.bind_some, Option.map_eq_some_iff] at hnext
  obtain ⟨h, hh, rfl⟩ := hnext
  obtain ⟨r, hr, rfl⟩ := isStepOf_of_getElem?_headings hp hh
  exact ⟨r, hr, rfl⟩

/-- A path that goes on is walked from the end of the path before it. -/
theorem walkFrom_append (o : Coord) (p q : Path) :
    (p ++ q).walkFrom o = p.walkFrom o ++ q.walkFrom (p.endFrom o) := by
  induction p generalizing o with
  | nil => rfl
  | cons r p ih =>
      show stepsOf o r ++ walkFrom (o.offset r) (p ++ q) = _
      rw [ih, ← List.append_assoc]
      rfl

/-! ### Maps of the grid

A walk asks for nothing but the next position in a heading.  So a map that takes every such step to
a step in some heading takes the walk to that of the path with these headings.
-/

/-- A map of the grid that takes steps in a heading to steps in another one. -/
def Carries (f : Coord → Coord) (σ : Heading → Heading) : Prop :=
  ∀ c h n, f (c.offset ⟨h, n⟩) = (f c).offset ⟨σ h, n⟩

/-- The path with other headings. -/
def reorient (σ : Heading → Heading) (p : Path) : Path :=
  p.map fun r => { r with heading := σ r.heading }

/-- A map that carries steps carries walks. -/
theorem map_walkFrom {f : Coord → Coord} {σ : Heading → Heading} (hf : Carries f σ) (o : Coord)
    (p : Path) : (p.walkFrom o).map f = (p.reorient σ).walkFrom (f o) := by
  induction p generalizing o with
  | nil => rfl
  | cons r p ih =>
      have hsteps : (stepsOf o r).map f = stepsOf (f o) { r with heading := σ r.heading } := by
        rw [stepsOf, List.map_map]
        exact List.map_congr_left fun i _ => hf o r.heading (i + 1)
      rw [walkFrom, List.map_append, ih, hsteps, hf]
      rfl

theorem carries_add (v : Coord) : Carries (v + ·) id := fun c h n => (c.add_offset v ⟨h, n⟩).symm

/-- The walk from another start is the walk from the origin, shifted. -/
theorem walkFrom_eq_map_walk (o : Coord) (p : Path) : p.walkFrom o = p.walk.map (o + ·) := by
  have hsame : p.reorient id = p := List.map_id _
  have horigin : o + Coord.origin = o := add_zero o
  rw [walk, map_walkFrom (carries_add o), hsame, horigin]

/-! ### Walks as lattice paths -/

/--
**A walk is a path along the grid lines.**  It has as many positions as its runs are long
together.  Each is one step further than the one before it, the first than the start, in the
heading of the run that the step belongs to.  The last one is the start moved by all the runs;
another start moves every position alike; and a path that continues another is walked from
where that one ends.
-/
theorem walk_is_a_lattice_path (p : Path) (hp : ∀ r ∈ p, 0 ≤ r.length) (o : Coord) :
    ((p.walkFrom o).length : Int) = (p.map Run.length).sum ∧
    (∀ n c c', (o :: p.walkFrom o)[n]? = some c → (p.walkFrom o)[n]? = some c' →
      c.distance c' = 1 ∧ ∃ r, p.IsStepOf n r ∧ c' = c.offset (r.resize 1)) ∧
    (p.walkFrom o).getLastD o = o + (p.map Coord.origin.offset).sum ∧
    p.walkFrom o = p.walk.map (o + ·) ∧
    ∀ q : Path, (p ++ q).walkFrom o = p.walkFrom o ++ q.walkFrom ((p.walkFrom o).getLastD o) := by
  refine ⟨length_walkFrom hp o, fun n c c' hc hc' => ?_, ?_, walkFrom_eq_map_walk o p, fun q => ?_⟩
  · obtain ⟨r, hr, rfl⟩ := step_of_getElem?_walkFrom hp hc hc'
    exact ⟨c.distance_step r.heading, r, hr, rfl⟩
  · rw [getLastD_walkFrom hp, endFrom_eq_add_sum]
  · rw [getLastD_walkFrom hp, walkFrom_append]

/-- A walk with an empty run before its corner, and a path that goes on from its end. -/
theorem walk_around_a_corner :
    let p : Path := [⟨.up, 2⟩, ⟨.left, 0⟩, ⟨.right, 1⟩]
    let o : Coord := ⟨5, -1⟩
    (∀ r ∈ p, 0 ≤ r.length) ∧ ((p.walkFrom o).length : Int) = 3 ∧
    ((o :: p.walkFrom o)[2]? = some ⟨5, 1⟩ ∧ (p.walkFrom o)[2]? = some ⟨6, 1⟩ ∧
      ∃ r, p.IsStepOf 2 r ∧ ⟨6, 1⟩ = Coord.offset ⟨5, 1⟩ (r.resize 1)) ∧
    (p.walkFrom o).getLastD o = ⟨6, 1⟩ ∧ p.walkFrom o = p.walk.map (o + ·) ∧
    Path.walkFrom o (p ++ [⟨.down, 1⟩]) = p.walkFrom o ++ [⟨6, 0⟩] := by
  intro p o
  have hp : ∀ r ∈ p, 0 ≤ r.length := by decide
  obtain ⟨hlength, hsteps, hlast, hshift, hgoesOn⟩ := walk_is_a_lattice_path p hp o
  exact ⟨hp, hlength, ⟨rfl, rfl, (hsteps 2 _ _ rfl rfl).2⟩, hlast, hshift, hgoesOn [⟨.down, 1⟩]⟩

end Path

end Advent.Grid
