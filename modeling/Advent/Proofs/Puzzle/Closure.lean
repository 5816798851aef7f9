/-
Direct and indirect orbits.

An object orbits what it orbits directly and all that this orbits in turn: the transitive
closure of the map.  Those are the names on its chain, each of them once, so adding the lengths
of all chains counts the pairs of the closure (`Acyclic.total?_eq_length`).  A satellite that the map
does not know yet adds the pairs that begin with it and no others: one for what it orbits, and
one for each object that this orbits already.
-/
import Mathlib.Data.Set.Card
import Mathlib.Logic.Relation
import Advent.Proofs.Puzzle.Chains

namespace Advent.Puzzle.Orbits.OrbitMap

variable {o : OrbitMap} {m s x y z : String} {names : List String}

/-- One or more orbits lead from one object up to another. -/
def Reaches (o : OrbitMap) : String → String → Prop := Relation.TransGen o.Edge

theorem Climbs.reaches {n : Nat} (h : o.Climbs (n + 1) x y) : o.Reaches x y := by
  induction n generalizing x with
  | zero =>
      cases h with
      | step hedge hrest =>
          cases hrest
          exact .single hedge
  | succ n ih =>
      cases h with
      | step hedge hrest => exact .head hedge (ih hrest)

theorem reaches_iff_climbs : o.Reaches x y ↔ ∃ n, o.Climbs (n + 1) x y := by
  refine ⟨fun h => ?_, fun ⟨_, h⟩ => h.reaches⟩
  induction h using Relation.TransGen.head_induction_on with
  | single hedge => exact ⟨0, climbs_one hedge⟩
  | head hedge _ ih =>
      obtain ⟨n, hclimb⟩ := ih
      exact ⟨n + 1, .step hedge hclimb⟩

theorem acyclic_iff_reaches : o.Acyclic ↔ ∀ x, ¬ o.Reaches x x := by
  simp only [Acyclic, reaches_iff_climbs, not_exists]
  exact forall_comm

/-- The names on a chain are the objects above its own. -/
theorem Chain.mem_iff (h : o.Chain x names) : y ∈ names ↔ o.Reaches x y := by
  rw [reaches_iff_climbs, List.mem_iff_getElem?]
  exact exists_congr fun i => h.getElem?_eq_some_iff i y

/-! ### Counting pairs

Each pair of the closure is a satellite and a name on its chain, and no pair comes up twice: a name
is not repeated on a chain, and a satellite not in the map.
-/

/-- The pairs of an object and one above it. -/
def closure (o : OrbitMap) : Set (String × String) := {p | o.Reaches p.1 p.2}

/-- The names on the chains of all satellites, each paired with the satellite. -/
def pairs (o : OrbitMap) : List (String × String) :=
  o.satellites.flatMap fun x => (o.chain (o.size + 1) x).map fun y => (x, y)

theorem Acyclic.chain (h : o.Acyclic) (x : String) : o.Chain x (o.chain (o.size + 1) x) :=
  chain_of_length_lt _ (Nat.lt_succ_of_le ((h.straight x).length_chain_le _))

/-- The pairs that are counted are those of the closure. -/
theorem Acyclic.mem_pairs_iff (h : o.Acyclic) (p : String × String) : p ∈ o.pairs ↔ p ∈ o.closure := by
  obtain ⟨x, y⟩ := p
  simp only [pairs, List.mem_flatMap, List.mem_map, Prod.mk.injEq]
  refine ⟨?_, fun hreach => ?_⟩
  · rintro ⟨x, -, y, hy, rfl, rfl⟩
    exact (h.chain x).mem_iff.mp hy
  · -- what orbits something is a satellite
    obtain ⟨z, hedge, -⟩ := Relation.TransGen.head'_iff.mp hreach
    exact ⟨x, mem_satellites_of_edge hedge, y, (h.chain x).mem_iff.mpr hreach, rfl, rfl⟩

theorem nodup_satellites (o : OrbitMap) : o.satellites.Nodup :=
  Std.TreeMap.distinct_keys.imp fun hdistinct heq =>
    hdistinct (Std.LawfulEqCmp.compare_eq_iff_eq.mpr heq)

theorem Acyclic.nodup_pairs (h : o.Acyclic) : o.pairs.Nodup := by
  refine List.nodup_flatMap.mpr ⟨fun x _ => ?_, o.nodup_satellites.imp fun {x x'} hne p hp hp' => ?_⟩
  · exact (h.chain x).nodup.of_cons.map fun _ _ heq => (Prod.mk.inj heq).2
  · obtain ⟨y, -, rfl⟩ := List.mem_map.mp hp
    obtain ⟨y', -, heq⟩ := List.mem_map.mp hp'
    exact hne (Prod.mk.inj heq).1.symm

theorem Acyclic.total?_eq_length (h : o.Acyclic) : o.total? = some o.pairs.length := by
  have hchains : o.ancestors? = fun x => pure (o.chain (o.size + 1) x) :=
    funext fun x => ancestors?_eq_some_iff.mpr (h.chain x)
  rw [total?, hchains, List.mapM_pure, pairs, List.length_flatMap]
  simp [List.sum, Function.comp_def]

theorem encard_eq_length {α : Type} [DecidableEq α] {items : List α} {members : Set α}
    (hnodup : items.Nodup) (hmem : ∀ a, a ∈ items ↔ a ∈ members) : members.encard = items.length := by
  have hset : (items.toFinset : Set α) = members := by
    ext a
    rw [Finset.mem_coe, List.mem_toFinset, hmem]
  rw [← hset, Set.encard_coe_eq_coe_finsetCard, List.toFinset_card_of_nodup hnodup]

theorem Acyclic.encard_closure (h : o.Acyclic) : o.closure.encard = o.pairs.length :=
  encard_eq_length h.nodup_pairs h.mem_pairs_iff

theorem Acyclic.encard_above (h : o.Acyclic) (x : String) :
    {y | o.Reaches x y}.encard = (o.chain (o.size + 1) x).length :=
  encard_eq_length (h.chain x).nodup.of_cons fun _ => (h.chain x).mem_iff

/-! ### One more satellite

A satellite that nothing orbits and that orbits nothing yet has nothing to do with the pairs that
are there.  So all that is new are the pairs that begin with it.
-/

/-- The name is no satellite of the map, and no mass either. -/
structure Lacks (o : OrbitMap) (s : String) : Prop where
  satellite : o.massOf[s]? = none
  mass : ∀ x : String, o.massOf[x]? ≠ some s

/-- An orbit that is added is the only one of its satellite, and changes no other. -/
theorem edge_insert_iff : (o.insert m s).Edge x y ↔ if s = x then m = y else o.Edge x y := by
  rw [Edge, insert, Std.TreeMap.getElem?_insert]
  by_cases hx : s = x
  · simp [hx]
  · simp [hx, Edge]

theorem Lacks.ne_of_edge (hs : o.Lacks s) (hedge : o.Edge x y) : s ≠ x := by
  rintro rfl
  exact absurd (hs.satellite.symm.trans hedge) nofun

theorem Lacks.edge_insert (hs : o.Lacks s) (hedge : o.Edge x y) : (o.insert m s).Edge x y := by
  rw [edge_insert_iff, if_neg (hs.ne_of_edge hedge)]
  exact hedge

/-- The new satellite is below what it orbits and below all that this orbits already; nothing
else is new. -/
theorem Lacks.reaches_insert_iff (hs : o.Lacks s) (hm : m ≠ s) :
    (o.insert m s).Reaches x y ↔ o.Reaches x y ∨ x = s ∧ (y = m ∨ o.Reaches m y) := by
  have hold : ∀ {x y}, o.Reaches x y → (o.insert m s).Reaches x y :=
    fun h => Relation.TransGen.mono (fun _ _ hedge => hs.edge_insert hedge) _ _ h
  have hnew : (o.insert m s).Edge s m := edge_insert_iff.mpr (by rw [if_pos rfl])
  refine ⟨fun h => ?_, ?_⟩
  · induction h using Relation.TransGen.head_induction_on with
    | @single x hedge =>
        rw [edge_insert_iff] at hedge
        split at hedge
        · exact Or.inr ⟨Eq.symm ‹_›, Or.inl hedge.symm⟩
        · exact Or.inl (.single hedge)
    | @head x z hedge _ ih =>
        rw [edge_insert_iff] at hedge
        split at hedge
        · subst hedge
          rcases ih with hreach | ⟨hms, -⟩
          · exact Or.inr ⟨Eq.symm ‹_›, Or.inr hreach⟩
          · exact absurd hms hm
        · rcases ih with hreach | ⟨rfl, -⟩
          · exact Or.inl (.head hedge hreach)
          · exact absurd hedge (hs.mass x)
  · rintro (hreach | ⟨rfl, rfl | hreach⟩)
    · exact hold hreach
    · exact .single hnew
    · exact .head hnew (hold hreach)

theorem Lacks.not_reaches (hs : o.Lacks s) : ¬ o.Reaches x s := by
  intro h
  obtain ⟨z, -, hedge⟩ := Relation.TransGen.tail'_iff.mp h
  exact hs.mass z hedge

/-- A satellite that the map lacks makes no circle, unless it orbits itself. -/
theorem Acyclic.insert (h : o.Acyclic) (hs : o.Lacks s) (hm : m ≠ s) : (o.insert m s).Acyclic := by
  rw [acyclic_iff_reaches] at h ⊢
  intro x hback
  rcases (hs.reaches_insert_iff hm).mp hback with hreach | ⟨rfl, rfl | hreach⟩
  · exact h x hreach
  · exact hm rfl
  · exact hs.not_reaches hreach

/-- What is new are the pairs of the satellite with its mass and with all above this. -/
theorem Lacks.closure_insert (hs : o.Lacks s) (hm : m ≠ s) :
    (o.insert m s).closure = o.closure ∪ Prod.mk s '' Insert.insert m {y | o.Reaches m y} := by
  ext ⟨x, y⟩
  have hreaches := hs.reaches_insert_iff hm (x := x) (y := y)
  simpa [closure, eq_comm, and_comm] using hreaches

theorem Lacks.encard_closure_insert (hs : o.Lacks s) (hm : m ≠ s) (h : o.Acyclic) :
    (o.insert m s).closure.encard = o.closure.encard + (1 + {y | o.Reaches m y}.encard) := by
  have hdisjoint : Disjoint o.closure (Prod.mk s '' Insert.insert m {y | o.Reaches m y}) := by
    refine Set.disjoint_left.mpr ?_
    rintro _ hold ⟨y, -, rfl⟩
    obtain ⟨z, hedge, -⟩ := Relation.TransGen.head'_iff.mp hold
    exact hs.ne_of_edge hedge rfl
  have hnot : m ∉ {y | o.Reaches m y} := acyclic_iff_reaches.mp h m
  rw [hs.closure_insert hm, Set.encard_union_eq hdisjoint,
    (Prod.mk_right_injective s).injOn.encard_image, Set.encard_insert_of_notMem hnot, add_comm 1]

/-- **The total counts the transitive closure.**  In a map without circles every chain ends, so
the number of direct and indirect orbits is found, and it is that of the pairs of an object and
one above it.  A satellite that the map lacks, once it orbits something other than itself, adds
one for that and one for each object that it orbits by way of it. -/
theorem total_counts_the_closure (h : o.Acyclic) :
    (∀ x, ∃ names, o.ancestors? x = some names ∧ o.Chain x names) ∧
    (∃ n : Nat, o.total? = some n ∧
      {p : String × String | Relation.TransGen o.Edge p.1 p.2}.encard = n) ∧
    ∀ s m, o.Lacks s → m ≠ s → ∃ n k : Nat, o.total? = some n ∧
      {y | Relation.TransGen o.Edge m y}.encard = k ∧ (o.insert m s).total? = some (n + (1 + k)) := by
  refine ⟨fun x => ⟨_, ancestors?_eq_some_iff.mpr (h.chain x), h.chain x⟩,
    ⟨_, h.total?_eq_length, h.encard_closure⟩, fun s m hs hm => ?_⟩
  have hnew := h.insert hs hm
  have hcount := hnew.encard_closure
  rw [hs.encard_closure_insert hm h, h.encard_closure, h.encard_above] at hcount
  refine ⟨_, _, h.total?_eq_length, h.encard_above m, ?_⟩
  rw [hnew.total?_eq_length, Option.some.injEq]
  exact_mod_cast hcount.symm

/-- A moon of one of two planets makes four orbits of two: its own, and that of its planet's star. -/
theorem moon_adds_two_orbits :
    let o := (empty.insert "star" "inner").insert "star" "outer"
    o.Acyclic ∧ o.Lacks "moon" ∧ "outer" ≠ "moon" ∧ o.total? = some 2 ∧
      {p : String × String | Relation.TransGen o.Edge p.1 p.2}.encard = 2 ∧
      {y | Relation.TransGen o.Edge "outer" y}.encard = 1 ∧
      (o.insert "outer" "moon").total? = some 4 := by
  intro o
  have hacyclic : o.Acyclic := acyclic_iff.mpr (by decide +kernel)
  have hmass : ∀ x, ¬ o.Edge x "moon" := by
    intro x
    rw [edge_insert_iff, edge_insert_iff]
    simp [empty, Edge]
  have hlacks : o.Lacks "moon" := ⟨by decide +kernel, hmass⟩
  obtain ⟨-, ⟨n, htotal, hclosure⟩, hinsert⟩ := total_counts_the_closure hacyclic
  obtain ⟨n', k, htotal', habove, hmore⟩ := hinsert "moon" "outer" hlacks (by decide)
  have htwo : o.total? = some 2 := by decide +kernel
  have hfour : (o.insert "outer" "moon").total? = some 4 := by decide +kernel
  obtain rfl := Option.some.inj (htotal.symm.trans htwo)
  obtain rfl := Option.some.inj (htotal'.symm.trans htwo)
  obtain rfl : k = 1 := by
    have := Option.some.inj (hmore.symm.trans hfour)
    omega
  exact ⟨hacyclic, hlacks, by decide, htotal, hclosure, habove, hmore⟩

end Advent.Puzzle.Orbits.OrbitMap
