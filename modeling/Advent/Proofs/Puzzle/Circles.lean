/-
Ways up that never end.

Names on a chain are asked for one after another, and a longer answer only adds to a shorter one
(`take_chain`).  Where a chain ends, an answer that is long enough has all of it.  Where it does not,
every answer is as long as it was asked for, and each name in it is a satellite, because another one
follows.  There are only so many satellites, so an answer that is one longer than the map has a name
twice: the way up has run into a circle.
-/
import Advent.Proofs.Puzzle.Chains

namespace Advent.Puzzle.Orbits.OrbitMap

variable {o : OrbitMap} {x y : String} {names : List String}

/-! ### Shorter and longer answers -/

/-- A longer answer begins with the shorter one. -/
theorem take_chain (o : OrbitMap) (n k : Nat) (x : String) :
    (o.chain (n + k) x).take n = o.chain n x := by
  induction n generalizing x with
  | zero => rfl
  | succ n ih =>
      rw [Nat.add_right_comm, chain, chain]
      cases o.massOf[x]? with
      | none => rfl
      | some mass => simp only [List.take_succ_cons, ih mass]

theorem length_chain_le (o : OrbitMap) (limit : Nat) (x : String) :
    (o.chain limit x).length ≤ limit := by
  have htake := o.take_chain limit 0 x
  rw [← htake]
  exact List.length_take_le _ _

/-! ### Chains that end -/

theorem Chain.chain_eq_take (h : o.Chain x names) (limit : Nat) :
    o.chain limit x = names.take limit := by
  rw [← o.take_chain limit names.length x, h.chain_eq (Nat.le_add_left _ _)]

/-- A chain that has no more names than these, however many are asked for, ends. -/
theorem chain_iff : o.Chain x names ↔ ∀ limit, o.chain limit x = names.take limit := by
  refine ⟨Chain.chain_eq_take, fun h => ?_⟩
  have hall : o.chain (names.length + 1) x = names := by
    rw [h, List.take_of_length_le (Nat.le_succ _)]
  have hshort : (o.chain (names.length + 1) x).length < names.length + 1 := by
    rw [hall]
    exact Nat.lt_succ_self _
  exact hall ▸ chain_of_length_lt _ hshort

theorem Chain.isChain (h : o.Chain x names) : (x :: names).IsChain o.Edge := by
  induction h with
  | root => exact .singleton _
  | orbit hedge _ ih => exact .cons_cons hedge ih

theorem Chain.last_orbits_nothing (h : o.Chain x names) :
    ∀ last : String, (x :: names).getLast? = some last → o.massOf[last]? = none := by
  induction h with
  | root hroot =>
      rintro last ⟨⟩
      exact hroot
  | orbit _ _ ih =>
      intro last hlast
      exact ih last (by rwa [List.getLast?_cons_cons] at hlast)

/-! ### Chains that do not end

A chain without an end always has a next name, so every name on it is a satellite.  Satellites are
as many as the map has entries, and one more name than that has to be one of those before it.
-/

/-- There are always as many names as are asked for. -/
def Endless (o : OrbitMap) (x : String) : Prop := ∀ limit, (o.chain limit x).length = limit

theorem chain_or_endless (o : OrbitMap) (x : String) : (∃ names, o.Chain x names) ∨ o.Endless x := by
  refine or_iff_not_imp_left.mpr fun hnone limit => ?_
  refine Nat.le_antisymm (o.length_chain_le limit x) (Nat.le_of_not_lt fun hshort => ?_)
  exact hnone ⟨_, chain_of_length_lt limit hshort⟩

theorem Endless.mem_satellites (h : o.Endless x) {limit : Nat} (hy : y ∈ o.chain limit x) :
    y ∈ o.satellites := by
  refine mem_satellites_of_mem_dropLast (limit + 1) (x := x) ?_
  have hlast : (x :: o.chain (limit + 1) x).dropLast = x :: o.chain limit x := by
    rw [List.dropLast_eq_take, List.length_cons, h, Nat.add_sub_cancel, List.take_succ_cons, take_chain]
  rw [hlast]
  exact List.mem_cons_of_mem x hy

/-- A chain without an end is that of a sequence. -/
theorem Endless.exists_sequence (h : o.Endless x) :
    ∃ name : Nat → String, ∀ limit, o.chain limit x = (List.range limit).map name := by
  have hplace : ∀ i, ∃ y, (o.chain (i + 1) x)[i]? = some y := fun i =>
    ⟨_, List.getElem?_eq_getElem (by rw [h]; exact Nat.lt_succ_self i)⟩
  choose name hname using hplace
  refine ⟨name, fun limit => List.ext_getElem? fun i => ?_⟩
  by_cases hi : i < limit
  · obtain ⟨k, rfl⟩ := Nat.exists_eq_add_of_le (Nat.succ_le_of_lt hi)
    rw [List.getElem?_map, List.getElem?_range hi, Option.map_some, ← hname i, ← o.take_chain (i + 1) k x,
      List.getElem?_take_of_lt (Nat.lt_succ_self i)]
  · rw [List.getElem?_eq_none (by rw [h]; omega),
      List.getElem?_eq_none (by rw [List.length_map, List.length_range]; omega)]

/-- Among names one more than the map has satellites, one comes up twice. -/
theorem Endless.not_nodup (h : o.Endless x) : ¬ (o.chain (o.size + 1) x).Nodup := by
  intro hnodup
  have hle := (hnodup.subperm fun _ => h.mem_satellites).length_le
  rw [h, satellites, Std.TreeMap.length_keys] at hle
  exact absurd hle (Nat.not_succ_le_self _)

theorem Endless.exists_repeat (h : o.Endless x) {name : Nat → String}
    (hname : ∀ limit, o.chain limit x = (List.range limit).map name) :
    ∃ i j, i < j ∧ j < o.size + 1 ∧ name i = name j := by
  by_contra hnone
  refine h.not_nodup ?_
  rw [hname, List.Nodup, List.pairwise_iff_getElem]
  intro i j _ hj hlt heq
  rw [List.getElem_map, List.getElem_map, List.getElem_range, List.getElem_range] at heq
  exact hnone ⟨i, j, hlt, by simpa using hj, heq⟩

/-! ### Which of the two it is -/

theorem exists_chain_iff : (∃ names, o.Chain x names) ↔ (o.chain (o.size + 1) x).length ≤ o.size := by
  refine ⟨?_, fun hle => ⟨_, chain_of_length_lt _ (Nat.lt_succ_of_le hle)⟩⟩
  rintro ⟨names, hchain⟩
  rw [hchain.chain_eq (Nat.le_succ_of_le hchain.length_le)]
  exact hchain.length_le

theorem endless_iff_length : o.Endless x ↔ (o.chain (o.size + 1) x).length = o.size + 1 := by
  refine ⟨fun h => h _, fun hlength => (o.chain_or_endless x).resolve_left fun hchain => ?_⟩
  have hle := exists_chain_iff.mp hchain
  omega

theorem endless_iff_sequence :
    o.Endless x ↔ ∃ name : Nat → String, ∀ limit, o.chain limit x = (List.range limit).map name := by
  refine ⟨Endless.exists_sequence, ?_⟩
  rintro ⟨name, hname⟩ limit
  rw [hname, List.length_map, List.length_range]

/-- **A chain is short or endless.**  Either a chain ends, and then it has no more names than the map
has satellites, none of them twice, each of them what the one before orbits, and the last orbits
nothing.  Or it is an endless sequence, and then one of its names comes up again among the first
that are one more than the satellites.  So asking for that many names tells which it is. -/
theorem chain_is_short_or_endless (o : OrbitMap) (x : String) :
    ((∃ names, (∀ limit, o.chain limit x = names.take limit) ∧ names.length ≤ o.size ∧
        (x :: names).Nodup ∧
        (x :: names).IsChain (fun satellite mass => o.massOf[satellite]? = some mass) ∧
        ∀ last : String, (x :: names).getLast? = some last → o.massOf[last]? = none) ∨
      ∃ name : Nat → String, (∀ limit, o.chain limit x = (List.range limit).map name) ∧
        ∃ i j, i < j ∧ j < o.size + 1 ∧ name i = name j) ∧
    ((∃ names : List String, ∀ limit, o.chain limit x = names.take limit) ↔
      (o.chain (o.size + 1) x).length ≤ o.size) ∧
    ((∃ name : Nat → String, ∀ limit, o.chain limit x = (List.range limit).map name) ↔
      (o.chain (o.size + 1) x).length = o.size + 1) ∧
    ∀ names, o.ancestors? x = some names ↔ ∀ limit, o.chain limit x = names.take limit := by
  refine ⟨?_, ?_, ?_, fun names => ?_⟩
  · rcases o.chain_or_endless x with ⟨names, hchain⟩ | hendless
    · exact Or.inl ⟨names, hchain.chain_eq_take, hchain.length_le, hchain.nodup, hchain.isChain,
        hchain.last_orbits_nothing⟩
    · obtain ⟨name, hname⟩ := hendless.exists_sequence
      exact Or.inr ⟨name, hname, hendless.exists_repeat hname⟩
  · rw [← exists_chain_iff]
    simp only [chain_iff]
  · rw [← endless_iff_sequence, endless_iff_length]
  · rw [ancestors?_eq_some_iff, chain_iff]

/-- A moon of one of two objects that orbit one another climbs forever, and a name comes up again
among the first four.  The chain of an object that orbits nothing is empty. -/
theorem moon_of_a_pair_climbs_forever :
    let o := ((empty.insert "b" "moon").insert "c" "b").insert "b" "c"
    (o.chain (o.size + 1) "moon" = ["b", "c", "b", "c"] ∧ o.ancestors? "moon" = none ∧
      ∃ name : Nat → String, (∀ limit, o.chain limit "moon" = (List.range limit).map name) ∧
        ∃ i j, i < j ∧ j < 4 ∧ name i = name j) ∧
    ∀ limit, o.chain limit "star" = [] := by
  intro o
  have hfour : o.chain (o.size + 1) "moon" = ["b", "c", "b", "c"] := by decide +kernel
  have hsize : o.size = 3 := by decide +kernel
  obtain ⟨hmoon, hends, -, -⟩ := chain_is_short_or_endless o "moon"
  obtain ⟨-, -, -, hstar⟩ := chain_is_short_or_endless o "star"
  rw [hfour, hsize] at hends
  rw [hsize] at hmoon
  refine ⟨⟨hfour, by decide +kernel, ?_⟩, fun limit => ?_⟩
  · rcases hmoon with ⟨names, hnames, -⟩ | hrepeat
    · exact absurd (hends.mp ⟨names, hnames⟩) (by decide)
    · exact hrepeat
  · rw [(hstar []).mp (by decide +kernel) limit, List.take_nil]

end Advent.Puzzle.Orbits.OrbitMap
