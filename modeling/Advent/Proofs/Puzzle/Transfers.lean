/-
The fewest transfers.

An orbit map is also a graph, with an edge for every orbit, and a transfer goes along one of
its edges in either direction.  On the way from one object to another it never pays to come
down before going up, so a shortest way goes up to an object above both and down again;
`meets_of_walk` is that argument, by induction on the way.  In a map without circles each
object above both is the lowest one or lies above it, at just as many more orbits on either
side.  So the first object of one chain that lies on the other, where the search stops, gives
the least sum.
-/
import Mathlib.Combinatorics.SimpleGraph.Metric
import Mathlib.Order.Bounds.Basic
import Advent.Proofs.Puzzle.Chains

namespace Advent.Puzzle.Orbits.OrbitMap

variable {o : OrbitMap} {a b p q x y : String} {above beside : List String}

/-! ### The graph of a map -/

/-- The objects, with an edge between a satellite and what it orbits. -/
def graph (o : OrbitMap) : SimpleGraph String := SimpleGraph.fromRel o.Edge

/-- Objects are neighbours in the graph when one of them orbits the other. -/
theorem Acyclic.adj_iff (h : o.Acyclic) : o.graph.Adj x y ↔ o.Edge x y ∨ o.Edge y x := by
  rw [graph, SimpleGraph.fromRel_adj]
  refine ⟨And.right, fun hedge => ⟨?_, hedge⟩⟩
  rintro rfl
  rcases hedge with hedge | hedge <;> exact h 0 x (climbs_one hedge)

/-- So many orbits lead up from two objects to one, counted together. -/
def Meets (o : OrbitMap) (p q : String) (n : Nat) : Prop :=
  ∃ i j c, o.Climbs i p c ∧ o.Climbs j q c ∧ n = i + j

theorem Acyclic.exists_walk_of_climbs (h : o.Acyclic) {i : Nat} (hclimb : o.Climbs i x y) :
    ∃ w : o.graph.Walk x y, w.length = i := by
  induction hclimb with
  | refl x => exact ⟨.nil, rfl⟩
  | step hedge _ ih =>
      obtain ⟨w, hw⟩ := ih
      exact ⟨.cons (h.adj_iff.mpr (Or.inl hedge)) w, by rw [SimpleGraph.Walk.length_cons, hw]⟩

theorem Acyclic.exists_walk_of_meets (h : o.Acyclic) {n : Nat} (hmeets : o.Meets p q n) :
    ∃ w : o.graph.Walk p q, w.length = n := by
  obtain ⟨i, j, c, hp, hq, rfl⟩ := hmeets
  obtain ⟨up, hup⟩ := h.exists_walk_of_climbs hp
  obtain ⟨down, hdown⟩ := h.exists_walk_of_climbs hq
  exact ⟨up.append down.reverse, by
    rw [SimpleGraph.Walk.length_append, SimpleGraph.Walk.length_reverse, hup, hdown]⟩

/-- No way is shorter than going up from both ends until they meet. -/
theorem meets_of_walk (w : o.graph.Walk p q) : ∃ n, o.Meets p q n ∧ n ≤ w.length := by
  induction w with
  | nil => exact ⟨0, ⟨0, 0, _, .refl _, .refl _, rfl⟩, Nat.zero_le _⟩
  | @cons p r q hadj w ih =>
      obtain ⟨_, ⟨i, j, c, hr, hq, rfl⟩, hle⟩ := ih
      rw [SimpleGraph.Walk.length_cons]
      obtain ⟨-, hup | hdown⟩ := (SimpleGraph.fromRel_adj _ _ _).mp hadj
      · exact ⟨i + 1 + j, ⟨i + 1, j, c, .step hup hr, hq, rfl⟩, by omega⟩
      · cases hr with
        | refl =>
            -- the other end climbs past the step down, to where the way begins
            exact ⟨0 + (j + 1), ⟨0, j + 1, p, .refl p, hq.trans (climbs_one hdown), rfl⟩, by omega⟩
        | @step i _ s _ hedge hrest =>
            -- a step down and one up again are left out
            obtain rfl := hdown.unique hedge
            exact ⟨i + j, ⟨i, j, c, hrest, hq, rfl⟩, by omega⟩

/-- **The distance is the least number of orbits by which two objects meet.** -/
theorem Acyclic.isLeast_dist (h : o.Acyclic) (hreachable : o.graph.Reachable p q) :
    IsLeast {n | o.Meets p q n} (o.graph.dist p q) := by
  have hleast : ∀ n ∈ {n | o.Meets p q n}, o.graph.dist p q ≤ n := by
    intro n hmeets
    obtain ⟨w, rfl⟩ := h.exists_walk_of_meets hmeets
    exact SimpleGraph.dist_le w
  obtain ⟨w, hw⟩ := hreachable.exists_walk_length_eq_dist
  obtain ⟨n, hmeets, hle⟩ := meets_of_walk w
  have heq : n = o.graph.dist p q := Nat.le_antisymm (hw ▸ hle) (hleast n hmeets)
  exact ⟨heq ▸ hmeets, hleast⟩

/-! ### The search along two chains

The second chain is gone along until a name is found that is on the first.  Above it both chains are
the same, so every other name that they share is as many places further on either.
-/

/-- The sum of the places of a name on two chains. -/
def Joins (above beside : List String) (n : Nat) : Prop :=
  ∃ i j c, above[i]? = some c ∧ beside[j]? = some c ∧ n = i + j

/-- Where the search along the second chain stops. -/
def firstJoin (above beside : List String) : Option Nat :=
  beside.zipIdx.findSome? fun (name, j) => (above.idxOf? name).map (· + j)

theorem firstJoin_eq_none_iff : firstJoin above beside = none ↔ ¬ ∃ n, Joins above beside n := by
  rw [firstJoin, List.findSome?_eq_none_iff]
  refine ⟨?_, ?_⟩
  · rintro hnone ⟨n, i, j, c, habove, hbeside, rfl⟩
    have hc := hnone (c, j) (List.mk_mem_zipIdx_iff_getElem?.mpr hbeside)
    rw [Option.map_eq_none_iff, List.idxOf?_eq_none_iff] at hc
    exact hc (List.mem_of_getElem? habove)
  · rintro hnone ⟨c, j⟩ hmem
    rw [Option.map_eq_none_iff, List.idxOf?_eq_none_iff]
    intro hc
    obtain ⟨i, habove⟩ := List.mem_iff_getElem?.mp hc
    exact hnone ⟨i + j, i, j, c, habove, List.mk_mem_zipIdx_iff_getElem?.mp hmem, rfl⟩

/-- The search stops at the first name of the second chain that is on the first. -/
theorem of_firstJoin_eq_some {n : Nat} (h : firstJoin above beside = some n) :
    ∃ i j c, above[i]? = some c ∧ beside[j]? = some c ∧ n = i + j ∧
      ∀ k name, k < j → beside[k]? = some name → name ∉ above := by
  obtain ⟨before, ⟨c, j⟩, after, hsplit, hfound, hbefore⟩ := List.findSome?_eq_some_iff.mp h
  obtain ⟨i, hi, rfl⟩ := Option.map_eq_some_iff.mp hfound
  obtain ⟨hlt, hc, -⟩ := List.idxOf?_eq_some_iff.mp hi
  have hat : ∀ k : Nat, beside.zipIdx[k]? = beside[k]?.map fun name => (name, k) := by
    intro k
    rw [List.getElem?_zipIdx, Nat.zero_add]
  have hplace : beside[before.length]?.map (fun name => (name, before.length)) = some (c, j) := by
    rw [← hat, hsplit, List.getElem?_append_right (Nat.le_refl _), Nat.sub_self]
    rfl
  obtain ⟨name, hname, hpair⟩ := Option.map_eq_some_iff.mp hplace
  cases hpair
  refine ⟨i, before.length, c, List.getElem?_eq_some_iff.mpr ⟨hlt, hc⟩, hname, rfl, ?_⟩
  intro k name hk hbeside
  have hmem : (name, k) ∈ before := by
    have hget : beside.zipIdx[k]? = some (name, k) := by
      rw [hat, hbeside]
      rfl
    rw [hsplit, List.getElem?_append_left hk] at hget
    exact List.mem_of_getElem? hget
  have hnone := hbefore _ hmem
  rwa [Option.map_eq_none_iff, List.idxOf?_eq_none_iff] at hnone

/-- **Where the search stops, the sum is least.**  Any other common name lies above that one, just
as far on both chains. -/
theorem isLeast_firstJoin {n : Nat} (ha : o.Chain a above) (hb : o.Chain b beside)
    (h : firstJoin above beside = some n) : IsLeast {n | Joins above beside n} n := by
  obtain ⟨i, j, c, habove, hbeside, rfl, hfirst⟩ := of_firstJoin_eq_some h
  refine ⟨⟨i, j, c, habove, hbeside, rfl⟩, ?_⟩
  rintro _ ⟨i', j', c', habove', hbeside', rfl⟩
  -- the search has passed over no common name
  have hj : j ≤ j' := by
    by_contra hlt
    exact hfirst j' c' (Nat.lt_of_not_le hlt) hbeside' (List.mem_of_getElem? habove')
  obtain ⟨d, rfl⟩ := Nat.exists_eq_add_of_le hj
  have hrise : o.Climbs d c c' := by
    refine ((hb.getElem?_eq_some_iff j c).mp hbeside).rest ?_
    rw [Nat.add_right_comm]
    exact (hb.getElem?_eq_some_iff (j + d) c').mp hbeside'
  -- the other name lies as far above the first on the one chain as on the other
  have hsame : above[i + d]? = some c' := by
    refine (ha.getElem?_eq_some_iff (i + d) c').mpr ?_
    rw [Nat.add_right_comm]
    exact ((ha.getElem?_eq_some_iff i c).mp habove).trans hrise
  have hi : i' = i + d := by
    have hlt : i' < above.length := (List.getElem?_eq_some_iff.mp habove').1
    exact (List.getElem?_inj hlt ha.nodup.of_cons).mp (habove'.trans hsame.symm)
  omega

/-- Places on the chains of two satellites count the orbits from what they orbit. -/
theorem joins_iff_meets (ha : o.Chain a above) (hb : o.Chain b beside) (hp : o.Edge a p)
    (hq : o.Edge b q) (n : Nat) : Joins above beside n ↔ o.Meets p q n := by
  simp only [Joins, Meets, ha.getElem?_eq_some_iff, hb.getElem?_eq_some_iff, climbs_succ_iff hp,
    climbs_succ_iff hq]

theorem exists_edge_of_joins {n : Nat} (ha : o.Chain a above) (hb : o.Chain b beside)
    (h : Joins above beside n) : ∃ p q, o.Edge a p ∧ o.Edge b q := by
  obtain ⟨i, j, c, habove, hbeside, -⟩ := h
  cases ha with
  | root => exact absurd habove nofun
  | orbit hp =>
      cases hb with
      | root => exact absurd hbeside nofun
      | orbit hq => exact ⟨_, _, hp, hq⟩

/-! ### Transfers -/

theorem transfers?_eq (ha : o.Chain a above) (hb : o.Chain b beside) :
    o.transfers? a b = some (match firstJoin above beside with
      | some n => .ok n
      | none => .error (.unconnected a b)) := by
  rw [transfers?, ancestors?_eq_some_iff.mpr ha, ancestors?_eq_some_iff.mpr hb]
  rfl

/-- Both objects orbit something, and there is a way between what they orbit. -/
def Connected (o : OrbitMap) (a b : String) : Prop :=
  ∃ p q, o.Edge a p ∧ o.Edge b q ∧ o.graph.Reachable p q

theorem Connected.symm (h : o.Connected a b) : o.Connected b a := by
  obtain ⟨p, q, hp, hq, hreachable⟩ := h
  exact ⟨q, p, hq, hp, hreachable.symm⟩

/-- Objects that are connected are as many transfers apart as the graph says. -/
theorem Acyclic.transfers?_of_reachable (h : o.Acyclic) (ha : o.Chain a above)
    (hb : o.Chain b beside) (hp : o.Edge a p) (hq : o.Edge b q)
    (hreachable : o.graph.Reachable p q) :
    o.transfers? a b = some (.ok (o.graph.dist p q)) ∧
      IsLeast {n | Joins above beside n} (o.graph.dist p q) := by
  have hdist : IsLeast {n | Joins above beside n} (o.graph.dist p q) := by
    simp only [joins_iff_meets ha hb hp hq]
    exact h.isLeast_dist hreachable
  cases hjoin : firstJoin above beside with
  | none => exact absurd ⟨_, hdist.1⟩ (firstJoin_eq_none_iff.mp hjoin)
  | some n =>
      rw [transfers?_eq ha hb, hjoin, (isLeast_firstJoin ha hb hjoin).unique hdist]
      exact ⟨rfl, hdist⟩

theorem Acyclic.transfers?_of_not_connected (h : o.Acyclic) (hapart : ¬ o.Connected a b) :
    o.transfers? a b = some (.error (.unconnected a b)) := by
  obtain ⟨above, ha⟩ := (h.straight a).exists_chain
  obtain ⟨beside, hb⟩ := (h.straight b).exists_chain
  rw [transfers?_eq ha hb]
  cases hjoin : firstJoin above beside with
  | none => rfl
  | some n =>
      have hjoins := (isLeast_firstJoin ha hb hjoin).1
      obtain ⟨p, q, hp, hq⟩ := exists_edge_of_joins ha hb hjoins
      obtain ⟨w, -⟩ := h.exists_walk_of_meets ((joins_iff_meets ha hb hp hq n).mp hjoins)
      exact absurd ⟨p, q, hp, hq, ⟨w⟩⟩ hapart

theorem Acyclic.transfers?_eq_ok_iff (h : o.Acyclic) (n : Nat) :
    o.transfers? a b = some (.ok n) ↔
      ∃ p q, o.Edge a p ∧ o.Edge b q ∧ o.graph.Reachable p q ∧ n = o.graph.dist p q := by
  by_cases hconnected : o.Connected a b
  · obtain ⟨p, q, hp, hq, hreachable⟩ := hconnected
    obtain ⟨above, ha⟩ := (h.straight a).exists_chain
    obtain ⟨beside, hb⟩ := (h.straight b).exists_chain
    rw [(h.transfers?_of_reachable ha hb hp hq hreachable).1]
    simp only [Option.some.injEq, Except.ok.injEq]
    refine ⟨fun hn => ⟨p, q, hp, hq, hreachable, hn.symm⟩, ?_⟩
    rintro ⟨p', q', hp', hq', -, rfl⟩
    rw [hp.unique hp', hq.unique hq']
  · rw [h.transfers?_of_not_connected hconnected]
    refine ⟨nofun, ?_⟩
    rintro ⟨p, q, hp, hq, hreachable, -⟩
    exact absurd ⟨p, q, hp, hq, hreachable⟩ hconnected

theorem Acyclic.transfers?_eq_ok_comm (h : o.Acyclic) (a b : String) (n : Nat) :
    o.transfers? a b = some (.ok n) → o.transfers? b a = some (.ok n) := by
  rw [h.transfers?_eq_ok_iff, h.transfers?_eq_ok_iff]
  rintro ⟨p, q, hp, hq, hreachable, rfl⟩
  exact ⟨q, p, hq, hp, hreachable.symm, SimpleGraph.dist_comm⟩

theorem Acyclic.transfers?_eq_error_iff (h : o.Acyclic) :
    (∃ f, o.transfers? a b = some (.error f)) ↔ ¬ o.Connected a b := by
  refine ⟨?_, fun hapart => ⟨_, h.transfers?_of_not_connected hapart⟩⟩
  rintro ⟨f, hf⟩ ⟨p, q, hp, hq, hreachable⟩
  have hok := (h.transfers?_eq_ok_iff _).mpr ⟨p, q, hp, hq, hreachable, rfl⟩
  exact absurd (hf.symm.trans hok) nofun

/-- **The transfers are the distance.**  In a map without circles, two objects take as many
transfers as a shortest way between what they orbit has edges, which is the least sum of the
places of a common name on their chains.  Without such a way there is no answer.  Either way it
does not matter which object is named first. -/
theorem transfers_are_the_distance (h : o.Acyclic) (a b : String) :
    (∀ x y, o.graph.Adj x y ↔ o.massOf[x]? = some y ∨ o.massOf[y]? = some x) ∧
    (∀ p q, o.massOf[a]? = some p → o.massOf[b]? = some q → o.graph.Reachable p q →
      o.transfers? a b = some (.ok (o.graph.dist p q)) ∧
      ∃ above beside, o.ancestors? a = some above ∧ o.ancestors? b = some beside ∧
        o.Chain a above ∧ o.Chain b beside ∧
        IsLeast {n | Joins above beside n} (o.graph.dist p q)) ∧
    ((¬ ∃ p q, o.massOf[a]? = some p ∧ o.massOf[b]? = some q ∧ o.graph.Reachable p q) →
      o.transfers? a b = some (.error (.unconnected a b))) ∧
    (Fault.unconnected a b).kind = .noSolution ∧
    (∀ n, o.transfers? a b = some (.ok n) ↔ o.transfers? b a = some (.ok n)) ∧
    ((∃ f, o.transfers? a b = some (.error f)) ↔ ∃ f, o.transfers? b a = some (.error f)) := by
  obtain ⟨above, ha⟩ := (h.straight a).exists_chain
  obtain ⟨beside, hb⟩ := (h.straight b).exists_chain
  refine ⟨fun x y => h.adj_iff, fun p q hp hq hreachable => ?_, h.transfers?_of_not_connected, rfl,
    fun n => ?_, ?_⟩
  · obtain ⟨htransfers, hleast⟩ := h.transfers?_of_reachable ha hb hp hq hreachable
    exact ⟨htransfers, above, beside, ancestors?_eq_some_iff.mpr ha,
      ancestors?_eq_some_iff.mpr hb, ha, hb, hleast⟩
  · exact ⟨h.transfers?_eq_ok_comm a b n, h.transfers?_eq_ok_comm b a n⟩
  · rw [h.transfers?_eq_error_iff, h.transfers?_eq_error_iff]
    exact ⟨mt Connected.symm, mt Connected.symm⟩

/-- Two moons of planets that orbit one star are two transfers apart, by way of the star. -/
theorem moons_are_two_apart :
    let o := (((empty.insert "star" "p").insert "p" "a").insert "star" "q").insert "q" "b"
    o.Acyclic ∧ (o.massOf["a"]? = some "p" ∧ o.massOf["b"]? = some "q" ∧ o.graph.Reachable "p" "q") ∧
      o.transfers? "a" "b" = some (.ok (o.graph.dist "p" "q")) ∧ o.graph.dist "p" "q" = 2 := by
  intro o
  have hacyclic : o.Acyclic := acyclic_iff.mpr (by decide +kernel)
  have ha : o.massOf["a"]? = some "p" := by decide +kernel
  have hb : o.massOf["b"]? = some "q" := by decide +kernel
  have hp : o.Edge "p" "star" := by
    show o.massOf["p"]? = some "star"
    decide +kernel
  have hq : o.Edge "q" "star" := by
    show o.massOf["q"]? = some "star"
    decide +kernel
  have hreachable : o.graph.Reachable "p" "q" := by
    have hup := (hacyclic.adj_iff.mpr (Or.inl hp)).reachable
    exact hup.trans (hacyclic.adj_iff.mpr (Or.inl hq)).reachable.symm
  have htransfers := ((transfers_are_the_distance hacyclic "a" "b").2.1 "p" "q" ha hb hreachable).1
  have htwo : o.transfers? "a" "b" = some (.ok 2) := by decide +kernel
  refine ⟨hacyclic, ⟨ha, hb, hreachable⟩, htransfers, ?_⟩
  simpa using htransfers.symm.trans htwo

end Advent.Puzzle.Orbits.OrbitMap
