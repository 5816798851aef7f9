/-
Chains of orbits.

An object orbits at most one other, so there is one way up from it.  `Climbs` is the part of
that way which takes so many orbits, and `Chain` is a whole way up that ends.  It ends exactly
when nothing on it leads back to itself: then no object comes up twice, each but the last is a
satellite, and there are no more satellites than the map has entries.  That is why following
a chain for one step more than there are entries tells whether it ends, which
`ancestors?_eq_some_iff` says.
-/
import Mathlib.Data.List.Nodup
import Mathlib.Data.List.Perm.Subperm
import Advent.Puzzle.Orbits

namespace Advent.Puzzle.Orbits.OrbitMap

/-- A satellite and the mass that it orbits. -/
def Edge (o : OrbitMap) (satellite mass : String) : Prop := o.massOf[satellite]? = some mass

/-- So many orbits lead from one object up to another. -/
inductive Climbs (o : OrbitMap) : Nat → String → String → Prop where
  | refl (x : String) : Climbs o 0 x x
  | step {n : Nat} {x y z : String} (hedge : o.Edge x y) (hrest : Climbs o n y z) :
      Climbs o (n + 1) x z

/-- All the objects on the way up from an object, which ends. -/
inductive Chain (o : OrbitMap) : String → List String → Prop where
  | root {x : String} (hroot : o.massOf[x]? = none) : Chain o x []
  | orbit {x y : String} {names : List String} (hedge : o.Edge x y) (hrest : Chain o y names) :
      Chain o x (y :: names)

/-- No object leads back to itself. -/
def Acyclic (o : OrbitMap) : Prop := ∀ n x, ¬ o.Climbs (n + 1) x x

/-- No object on the way up leads back to itself. -/
def Straight (o : OrbitMap) (x : String) : Prop :=
  ∀ k y n, o.Climbs k x y → ¬ o.Climbs (n + 1) y y

variable {o : OrbitMap} {x y z : String} {names names' : List String} {i j n : Nat}

theorem Edge.unique (h : o.Edge x y) (h' : o.Edge x z) : y = z :=
  Option.some.inj (h.symm.trans h')

theorem mem_satellites_of_edge (h : o.Edge x y) : x ∈ o.satellites := by
  have hmass : o.massOf[x]? = some y := h
  rw [satellites, Std.TreeMap.mem_keys, Std.TreeMap.mem_iff_isSome_getElem?, hmass]
  rfl

theorem Acyclic.straight (h : o.Acyclic) (x : String) : o.Straight x := fun _ y n _ => h n y

theorem Straight.of_edge (h : o.Straight x) (hedge : o.Edge x y) : o.Straight y :=
  fun k z n hclimb => h (k + 1) z n (.step hedge hclimb)

/-! ### There is one way up

Each object on the way settles the next one, so two ways up from the same object are the same as far
as both go.
-/

theorem climbs_succ_iff (hedge : o.Edge x y) : o.Climbs (n + 1) x z ↔ o.Climbs n y z := by
  refine ⟨?_, .step hedge⟩
  intro h
  cases h with
  | step hedge' hrest => exact hedge.unique hedge' ▸ hrest

theorem climbs_one (hedge : o.Edge x y) : o.Climbs 1 x y := .step hedge (.refl y)

theorem Climbs.trans (h : o.Climbs i x y) (h' : o.Climbs j y z) : o.Climbs (i + j) x z := by
  induction h with
  | refl x => rwa [Nat.zero_add]
  | step hedge _ ih =>
      rw [Nat.add_right_comm]
      exact .step hedge (ih h')

/-- What lies further up is reached from what lies on the way. -/
theorem Climbs.rest (h : o.Climbs i x y) (h' : o.Climbs (i + j) x z) : o.Climbs j y z := by
  induction h with
  | refl x => rwa [Nat.zero_add] at h'
  | step hedge _ ih =>
      rw [Nat.add_right_comm, climbs_succ_iff hedge] at h'
      exact ih h'

theorem Chain.unique (h : o.Chain x names) (h' : o.Chain x names') : names = names' := by
  induction h generalizing names' with
  | root hroot =>
      cases h' with
      | root => rfl
      | orbit hedge => exact absurd (hroot.symm.trans hedge) nofun
  | orbit hedge _ ih =>
      cases h' with
      | root hroot => exact absurd (hroot.symm.trans hedge) nofun
      | orbit hedge' hrest' =>
          obtain rfl := hedge.unique hedge'
          rw [ih hrest']

/-- The name at an index of a chain is one orbit more away. -/
theorem Chain.getElem?_eq_some_iff (h : o.Chain x names) (i : Nat) (c : String) :
    names[i]? = some c ↔ o.Climbs (i + 1) x c := by
  induction h generalizing i with
  | root hroot =>
      refine ⟨nofun, fun hclimb => ?_⟩
      cases hclimb with
      | step hedge => exact absurd (hroot.symm.trans hedge) nofun
  | @orbit x y names hedge _ ih =>
      rw [climbs_succ_iff hedge]
      cases i with
      | zero =>
          rw [List.getElem?_cons_zero, Option.some.injEq]
          refine ⟨fun hc => hc ▸ .refl y, fun hclimb => ?_⟩
          cases hclimb
          rfl
      | succ i => exact ih i

theorem Chain.drop (h : o.Chain x names) (hclimb : o.Climbs i x y) :
    i ≤ names.length ∧ o.Chain y (names.drop i) := by
  induction hclimb generalizing names with
  | refl x => exact ⟨Nat.zero_le _, h⟩
  | step hedge _ ih =>
      cases h with
      | root hroot => exact absurd (hroot.symm.trans hedge) nofun
      | orbit hedge' hrest =>
          obtain rfl := hedge.unique hedge'
          obtain ⟨hle, hchain⟩ := ih hrest
          exact ⟨Nat.succ_le_succ hle, hchain⟩

/-- A way up that ends does not lead back. -/
theorem Chain.straight (h : o.Chain x names) : o.Straight x := by
  intro k y n hclimb hback
  obtain ⟨-, hchain⟩ := h.drop hclimb
  obtain ⟨hle, hagain⟩ := hchain.drop hback
  have hlength := congrArg List.length (hchain.unique hagain)
  simp only [List.length_drop] at hle hlength
  omega

/-! ### A way up that does not lead back ends

On such a way no name comes up twice, and all but the last are satellites.  So it is no longer than
there are satellites, and it is answered in full if it is asked for one name more.
-/

theorem climbs_of_mem_chain (limit : Nat) :
    ∀ x : String, y ∈ o.chain limit x → ∃ n, o.Climbs (n + 1) x y := by
  induction limit with
  | zero => intro x hy; exact absurd hy List.not_mem_nil
  | succ limit ih =>
      intro x hy
      rw [chain] at hy
      split at hy
      · exact absurd hy List.not_mem_nil
      · rename_i mass hedge
        rcases List.mem_cons.mp hy with rfl | hrest
        · exact ⟨0, climbs_one hedge⟩
        · obtain ⟨n, hclimb⟩ := ih mass hrest
          exact ⟨n + 1, .step hedge hclimb⟩

theorem Straight.nodup (limit : Nat) :
    ∀ {x : String}, o.Straight x → (x :: o.chain limit x).Nodup := by
  induction limit with
  | zero => intro x _; exact List.nodup_singleton x
  | succ limit ih =>
      intro x hx
      rw [chain]
      split
      · exact List.nodup_singleton x
      · rename_i mass hedge
        refine List.nodup_cons.mpr ⟨fun hmem => ?_, ih (hx.of_edge hedge)⟩
        rcases List.mem_cons.mp hmem with rfl | hrest
        · exact hx 0 x 0 (.refl x) (climbs_one hedge)
        · obtain ⟨n, hclimb⟩ := climbs_of_mem_chain limit mass hrest
          exact hx 0 x (n + 1) (.refl x) (.step hedge hclimb)

/-- All names on a way up but the last are satellites. -/
theorem mem_satellites_of_mem_dropLast (limit : Nat) :
    ∀ {x : String}, y ∈ (x :: o.chain limit x).dropLast → y ∈ o.satellites := by
  induction limit with
  | zero => intro x hy; exact absurd hy List.not_mem_nil
  | succ limit ih =>
      intro x hy
      rw [chain] at hy
      split at hy
      · exact absurd hy List.not_mem_nil
      · rename_i mass hedge
        rw [List.dropLast_cons_cons] at hy
        rcases List.mem_cons.mp hy with rfl | hrest
        · exact mem_satellites_of_edge hedge
        · exact ih hrest

/-- A way up that does not lead back has no more names than there are satellites. -/
theorem Straight.length_chain_le (hx : o.Straight x) (limit : Nat) :
    (o.chain limit x).length ≤ o.size := by
  have hsub : (x :: o.chain limit x).dropLast ⊆ o.satellites :=
    fun _ => mem_satellites_of_mem_dropLast limit
  have hnodup : (x :: o.chain limit x).dropLast.Nodup :=
    (hx.nodup limit).sublist (List.dropLast_sublist _)
  have hle := (hnodup.subperm hsub).length_le
  rw [List.length_dropLast, List.length_cons, satellites, Std.TreeMap.length_keys] at hle
  exact hle

/-- An answer shorter than was asked for is the whole chain. -/
theorem chain_of_length_lt (limit : Nat) :
    ∀ {x : String}, (o.chain limit x).length < limit → o.Chain x (o.chain limit x) := by
  induction limit with
  | zero => intro x h; exact absurd h (Nat.not_lt_zero _)
  | succ limit ih =>
      intro x h
      rw [chain] at h ⊢
      cases hmass : o.massOf[x]? with
      | none => exact .root hmass
      | some mass =>
          rw [hmass] at h
          exact .orbit hmass (ih (Nat.lt_of_succ_lt_succ h))

/-- A chain is answered in full when enough names are asked for. -/
theorem Chain.chain_eq (h : o.Chain x names) {limit : Nat} (hlimit : names.length ≤ limit) :
    o.chain limit x = names := by
  induction h generalizing limit with
  | root hroot =>
      cases limit with
      | zero => rfl
      | succ limit => rw [chain, hroot]
  | @orbit x y names hedge _ ih =>
      obtain ⟨limit, rfl⟩ : ∃ k, limit = k + 1 := ⟨limit - 1, by simp at hlimit; omega⟩
      have hx : o.massOf[x]? = some y := hedge
      rw [chain, hx]
      simp only [ih (Nat.le_of_succ_le_succ hlimit)]

/-- A way up that does not lead back ends. -/
theorem Straight.exists_chain (hx : o.Straight x) : ∃ names, o.Chain x names :=
  ⟨_, chain_of_length_lt (o.size + 1) (Nat.lt_succ_of_le (hx.length_chain_le _))⟩

theorem Chain.length_le (h : o.Chain x names) : names.length ≤ o.size := by
  have hle := h.straight.length_chain_le names.length
  rwa [h.chain_eq (Nat.le_refl _)] at hle

theorem Chain.nodup (h : o.Chain x names) : (x :: names).Nodup := by
  have hnodup := h.straight.nodup names.length
  rwa [h.chain_eq (Nat.le_refl _)] at hnodup

/-- **The ancestors of an object are its chain**, and it has them when the chain ends. -/
theorem ancestors?_eq_some_iff : o.ancestors? x = some names ↔ o.Chain x names := by
  unfold ancestors?
  dsimp only
  refine ⟨fun h => ?_, fun h => ?_⟩
  · split at h
    · cases h
      exact chain_of_length_lt _ (Nat.lt_succ_of_le ‹_›)
    · cases h
  · have hlimit := h.length_le
    rw [h.chain_eq (Nat.le_succ_of_le hlimit), if_pos hlimit]

/-- A map is without circles when all its satellites have ancestors. -/
theorem acyclic_iff : o.Acyclic ↔ ∀ x ∈ o.satellites, (o.ancestors? x).isSome := by
  refine ⟨fun h x _ => ?_, fun h n x hback => ?_⟩
  · obtain ⟨names, hchain⟩ := (h.straight x).exists_chain
    rw [ancestors?_eq_some_iff.mpr hchain]
    rfl
  · have hmem : x ∈ o.satellites := by
      cases hback with
      | step hedge => exact mem_satellites_of_edge hedge
    obtain ⟨names, hnames⟩ := Option.isSome_iff_exists.mp (h x hmem)
    exact (ancestors?_eq_some_iff.mp hnames).straight 0 x n (.refl x) hback

end Advent.Puzzle.Orbits.OrbitMap
