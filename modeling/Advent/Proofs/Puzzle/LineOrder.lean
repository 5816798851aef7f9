/-
Orbit maps whose lines come in another order.

A line says of one satellite what it orbits, and later lines take precedence.  So all that a
map keeps of its lines is what the last line of each satellite says (`insertLines_eq`), and all
that the answers need of a map is what each name orbits (`answers_congr`).  Where every
satellite has one line, that is its last one in any order.  Nor does it matter in which order the
satellites are gone through to add up their orbits (`total?_eq_totalAlong`).
-/
import Mathlib.Data.List.Nodup
import Advent.Proofs.Puzzle.Closure
import Advent.Proofs.Puzzle.Transfers
import Advent.Proofs.Text.Cut

namespace Advent.Puzzle.Orbits

/-! ### What a line says

A line with one separator has two sides, and reading it never fails.  What the map keeps of it is
gone when a later line is about the same satellite.
-/

/-- The mass, which stands before the separator. -/
def massIn (line : String) : String := String.ofList (line.toList.takeWhile (· ≠ ')'))

/-- The satellite, which stands behind the separator. -/
def satelliteIn (line : String) : String := String.ofList ((line.toList.dropWhile (· ≠ ')')).drop 1)

theorem exists_sides {line : String} (hone : line.toList.count ')' = 1) :
    ∃ mass satellite, ')' ∉ mass ∧ ')' ∉ satellite ∧ line.toList = mass ++ ')' :: satellite ∧
      massIn line = String.ofList mass ∧ satelliteIn line = String.ofList satellite := by
  have hmem : ')' ∈ line.toList := List.count_pos_iff.mp (by omega)
  obtain ⟨mass, satellite, hsplit, hmass⟩ := List.eq_append_cons_of_mem hmem
  have hbefore : ∀ c ∈ mass, c ≠ ')' := fun c hc heq => hmass (heq ▸ hc)
  have hsatellite : ')' ∉ satellite := by
    rw [hsplit, List.count_append, List.count_cons_self] at hone
    exact List.count_eq_zero.mp (by omega)
  refine ⟨mass, satellite, hmass, hsatellite, hsplit, ?_, ?_⟩
  · rw [massIn, hsplit, List.takeWhile_append_of_pos (by simpa using hbefore)]
    simp
  · rw [satelliteIn, hsplit, List.dropWhile_append_of_pos (by simpa using hbefore)]
    simp

theorem parseLine_eq {line : String} (hone : line.toList.count ')' = 1) :
    parseLine line = .ok (massIn line, satelliteIn line) := by
  obtain ⟨mass, satellite, hmass, hsatellite, hsplit, hbefore, hbehind⟩ := exists_sides hone
  have hparts : line.toList.splitOn ')' = [mass, satellite] := by
    have hjoined : line.toList = [')'].intercalate [mass, satellite] := by
      rw [hsplit]
      simp [List.intercalate]
    rw [hjoined]
    exact List.splitOn_intercalate ')' (by simpa using ⟨hmass, hsatellite⟩) (List.cons_ne_nil _ _)
  simp only [parseLine, hparts, hbefore, hbehind]

/-- The last line of a satellite. -/
def lastLine? (satellite : String) (lines : List String) : Option String :=
  lines.reverse.find? fun line => satelliteIn line = satellite

theorem lastLine?_cons (satellite line : String) (rest : List String) :
    lastLine? satellite (line :: rest) =
      (lastLine? satellite rest).or (if satelliteIn line = satellite then some line else none) := by
  rw [lastLine?, List.reverse_cons, List.find?_append, List.find?_singleton]
  simp [lastLine?]

/-- The lines that are the last ones of their satellites. -/
def lastLines : List String → List String
  | [] => []
  | line :: rest =>
    if satelliteIn line ∈ rest.map satelliteIn then lastLines rest else line :: lastLines rest

variable {lines lines' : List String} {satellite : String}

theorem mem_of_mem_lastLines {line : String} (h : line ∈ lastLines lines) : line ∈ lines := by
  induction lines with
  | nil => exact h
  | cons first rest ih =>
      rw [lastLines] at h
      split at h
      · exact List.mem_cons_of_mem first (ih h)
      · rcases List.mem_cons.mp h with rfl | hrest
        · exact List.mem_cons_self
        · exact List.mem_cons_of_mem first (ih hrest)

theorem exists_lastLine? {line : String} (hline : line ∈ lines)
    (hsatellite : satelliteIn line = satellite) : ∃ last, lastLine? satellite lines = some last := by
  refine Option.isSome_iff_exists.mp (List.find?_isSome.mpr ⟨line, List.mem_reverse.mpr hline, ?_⟩)
  simpa using hsatellite

/-- Leaving out lines that are not the last ones of their satellites leaves the last ones. -/
theorem lastLine?_lastLines (satellite : String) (lines : List String) :
    lastLine? satellite (lastLines lines) = lastLine? satellite lines := by
  induction lines with
  | nil => rfl
  | cons line rest ih =>
      rw [lastLines]
      split
      · rename_i hagain
        obtain ⟨later, hlater, hsame⟩ := List.mem_map.mp hagain
        rw [ih, lastLine?_cons]
        by_cases hline : satelliteIn line = satellite
        · obtain ⟨last, hlast⟩ := exists_lastLine? hlater (hsame.trans hline)
          rw [hlast, Option.some_or]
        · rw [if_neg hline, Option.or_none]
      · rw [lastLine?_cons, lastLine?_cons, ih]

theorem of_lastLine?_eq_some {line : String} (h : lastLine? satellite lines = some line) :
    line ∈ lines ∧ satelliteIn line = satellite :=
  ⟨List.mem_reverse.mp (List.mem_of_find?_eq_some h), by simpa using List.find?_some h⟩

/-- The only line of a satellite is its last one. -/
theorem lastLine?_eq_some_iff (hdistinct : (lines.map satelliteIn).Nodup) {line : String} :
    lastLine? satellite lines = some line ↔ line ∈ lines ∧ satelliteIn line = satellite := by
  refine ⟨of_lastLine?_eq_some, ?_⟩
  rintro ⟨hline, hsatellite⟩
  obtain ⟨last, hlast⟩ := exists_lastLine? hline hsatellite
  obtain ⟨hmem, hsame⟩ := of_lastLine?_eq_some hlast
  rw [hlast, List.inj_on_of_nodup_map hdistinct hmem hline (hsame.trans hsatellite.symm)]

theorem lastLine?_perm (hdistinct : (lines.map satelliteIn).Nodup) (hperm : lines.Perm lines')
    (satellite : String) : lastLine? satellite lines' = lastLine? satellite lines := by
  have hdistinct' : (lines'.map satelliteIn).Nodup := (hperm.map satelliteIn).nodup_iff.mp hdistinct
  refine Option.ext fun line => ?_
  rw [lastLine?_eq_some_iff hdistinct, lastLine?_eq_some_iff hdistinct', hperm.mem_iff]

namespace OrbitMap

/-! ### What a map keeps of its lines -/

/-- After some lines a satellite orbits what its last line says, or else what it orbited before. -/
theorem insertLines_eq (hone : ∀ line ∈ lines, line.toList.count ')' = 1) :
    ∀ o : OrbitMap, ∃ o', o.insertLines lines = .ok o' ∧
      ∀ x : String, o'.massOf[x]? = ((lastLine? x lines).map massIn).or o.massOf[x]? := by
  induction lines with
  | nil => intro o; exact ⟨o, rfl, fun x => rfl⟩
  | cons line rest ih =>
      intro o
      obtain ⟨hline, hrest⟩ := List.forall_mem_cons.mp hone
      obtain ⟨o', hrest, hmass⟩ := ih hrest (o.insert (massIn line) (satelliteIn line))
      refine ⟨o', ?_, fun x => ?_⟩
      · rw [insertLines, parseLine_eq hline]
        exact hrest
      · rw [hmass, lastLine?_cons, insert, Std.TreeMap.getElem?_insert]
        by_cases hx : satelliteIn line = x
        · cases lastLine? x rest <;> simp [hx]
        · simp [hx]

/-- **A map keeps the last line of each satellite**, and nothing else of its lines. -/
theorem parse_eq (hone : ∀ line ∈ lines, line.toList.count ')' = 1) :
    ∃ o, parse lines = .ok o ∧ ∀ x : String, o.massOf[x]? = (lastLine? x lines).map massIn := by
  obtain ⟨o, hparse, hmass⟩ := insertLines_eq hone empty
  exact ⟨o, hparse, fun x => by simp [hmass, empty]⟩

/-- Lines with the same last ones make maps in which every name orbits the same. -/
theorem parse_congr (hone : ∀ line ∈ lines, line.toList.count ')' = 1)
    (hone' : ∀ line ∈ lines', line.toList.count ')' = 1)
    (hlast : ∀ x, lastLine? x lines' = lastLine? x lines) {o : OrbitMap} (hparse : parse lines = .ok o) :
    ∃ o', parse lines' = .ok o' ∧ ∀ x : String, o'.massOf[x]? = o.massOf[x]? := by
  obtain ⟨_, hlines, hmass⟩ := parse_eq hone
  obtain rfl := Except.ok.inj (hlines.symm.trans hparse)
  obtain ⟨o', hparse', hmass'⟩ := parse_eq hone'
  exact ⟨o', hparse', fun x => by rw [hmass, hmass', hlast]⟩

/-! ### The order of the satellites

The total goes through the satellites in ascending order, where it might as well go through them in
the order of their lines.  Any order will do: either all chains end, and their lengths add up to the
same, or one of them does not, and there is no total.
-/

/-- The total of a map, if its satellites come in this order. -/
def totalAlong (o : OrbitMap) (names : List String) : Option Nat := do
  let chains ← names.mapM o.ancestors?
  return (chains.map List.length).foldr (· + ·) 0

theorem totalAlong_cons (o : OrbitMap) (name : String) (names : List String) :
    o.totalAlong (name :: names) =
      (o.ancestors? name).bind fun chain => (o.totalAlong names).map (chain.length + ·) := by
  unfold totalAlong
  rw [List.mapM_cons]
  cases o.ancestors? name with
  | none => rfl
  | some chain => cases names.mapM o.ancestors? <;> rfl

/-- The order in which the satellites come does not matter, by induction on how it was changed. -/
theorem totalAlong_perm (o : OrbitMap) {names names' : List String} (hperm : names.Perm names') :
    o.totalAlong names = o.totalAlong names' := by
  induction hperm with
  | nil => rfl
  | cons name _ ih => rw [totalAlong_cons, totalAlong_cons, ih]
  | swap name name' names =>
      -- two neighbours change places: there is a total only if both of their chains end
      simp only [totalAlong_cons]
      cases o.ancestors? name with
      | none => cases o.ancestors? name' <;> rfl
      | some chain =>
          cases o.ancestors? name' with
          | none => rfl
          | some chain' =>
              cases o.totalAlong names with
              | none => rfl
              | some rest => exact congrArg some (Nat.add_left_comm _ _ _)
  | trans _ _ ih ih' => exact ih.trans ih'

/-- **The total does not lean on the order of the satellites.** -/
theorem total?_eq_totalAlong (o : OrbitMap) {names : List String} (hperm : names.Perm o.satellites) :
    o.total? = o.totalAlong names :=
  (o.totalAlong_perm hperm).symm

/-! ### What the answers need of a map -/

section

variable {o o' : OrbitMap} (h : ∀ x : String, o.massOf[x]? = o'.massOf[x]?)
include h

theorem chain_congr (limit : Nat) : ∀ x, o.chain limit x = o'.chain limit x := by
  induction limit with
  | zero => intro x; rfl
  | succ limit ih =>
      intro x
      rw [chain, chain, h x]
      cases o'.massOf[x]? with
      | none => rfl
      | some mass => simp only [ih mass]

/-- Maps in which every name orbits the same are of one size, so they ask for equally long chains.
-/
theorem ancestors?_congr : o.ancestors? = o'.ancestors? := by
  have hsize : o.size = o'.size := (Std.TreeMap.Equiv.of_forall_constGet?_eq h).size_eq
  funext x
  rw [ancestors?, ancestors?, hsize, chain_congr h]

/-- **Maps in which every name orbits the same answer alike.** -/
theorem answers_congr :
    o.total? = o'.total? ∧ ∀ a b, o.transfers? a b = o'.transfers? a b := by
  have hsatellites : o.satellites = o'.satellites :=
    (Std.TreeMap.Equiv.of_forall_constGet?_eq h).keys_eq
  refine ⟨?_, fun a b => ?_⟩
  · rw [total?, total?, hsatellites, ancestors?_congr h]
  · rw [transfers?, transfers?, ancestors?_congr h]

end

theorem Acyclic.transfers?_cases {o : OrbitMap} (h : o.Acyclic) (a b : String) :
    (∃ n, o.transfers? a b = some (.ok n)) ∨ o.transfers? a b = some (.error (.unconnected a b)) := by
  rw [transfers?_eq (h.chain a) (h.chain b)]
  cases firstJoin (o.chain (o.size + 1) a) (o.chain (o.size + 1) b) with
  | none => exact Or.inr rfl
  | some n => exact Or.inl ⟨n, rfl⟩

/-- **Answers do not depend on the order of the lines.**  Lines with one separator each make a
map.  If each is about another satellite and the map has no circles, every order of them makes a
map in which every name orbits the same, with the same total, and the same number of transfers or
the same fault for every two objects.  If satellites come up again, the lines that are the last
ones of their satellites are enough. -/
theorem line_order_does_not_matter (hone : ∀ line ∈ lines, line.toList.count ')' = 1) :
    ∃ o, parse lines = .ok o ∧
      ((lines.map satelliteIn).Nodup → o.Acyclic → ∀ lines', lines.Perm lines' →
        ∃ o', parse lines' = .ok o' ∧ (∀ x : String, o'.massOf[x]? = o.massOf[x]?) ∧
          (∃ n, o.total? = some n ∧ o'.total? = some n) ∧
          ∀ a b, o'.transfers? a b = o.transfers? a b ∧
            ((∃ n, o.transfers? a b = some (.ok n)) ∨
              o.transfers? a b = some (.error (.unconnected a b)))) ∧
      ∃ o', parse (lastLines lines) = .ok o' ∧ (∀ x : String, o'.massOf[x]? = o.massOf[x]?) ∧
        o'.total? = o.total? ∧ ∀ a b, o'.transfers? a b = o.transfers? a b := by
  obtain ⟨o, hparse, -⟩ := parse_eq hone
  refine ⟨o, hparse, fun hdistinct hacyclic lines' hperm => ?_, ?_⟩
  · have hone' : ∀ line ∈ lines', line.toList.count ')' = 1 := fun line hline =>
      hone line (hperm.mem_iff.mpr hline)
    obtain ⟨o', hparse', hsame⟩ := parse_congr hone hone' (lastLine?_perm hdistinct hperm) hparse
    obtain ⟨htotal, htransfers⟩ := answers_congr hsame
    refine ⟨o', hparse', hsame, ⟨_, hacyclic.total?_eq_length, ?_⟩, fun a b => ⟨htransfers a b, ?_⟩⟩
    · rw [htotal, hacyclic.total?_eq_length]
    · exact hacyclic.transfers?_cases a b
  · have hone' : ∀ line ∈ lastLines lines, line.toList.count ')' = 1 := fun line hline =>
      hone line (mem_of_mem_lastLines hline)
    have hlast := fun x => lastLine?_lastLines x lines
    obtain ⟨o', hparse', hsame⟩ := parse_congr hone hone' hlast hparse
    exact ⟨o', hparse', hsame, answers_congr hsame⟩

/-- A star with two planets, one of which has a moon, read from the outside in. -/
theorem moon_before_its_star :
    let lines := ["star)inner", "star)outer", "outer)moon"]
    (∀ line ∈ lines, line.toList.count ')' = 1) ∧ (lines.map satelliteIn).Nodup ∧
      lines.Perm ["outer)moon", "star)outer", "star)inner"] ∧
      (∃ o, parse lines = .ok o ∧ o.Acyclic) ∧
      (∃ o', parse ["outer)moon", "star)outer", "star)inner"] = .ok o' ∧ o'.total? = some 4 ∧
        o'.transfers? "moon" "inner" = some (.ok 1)) := by
  intro lines
  let o := ((empty.insert "star" "inner").insert "star" "outer").insert "outer" "moon"
  have hone : ∀ line ∈ lines, line.toList.count ')' = 1 := by decide +kernel
  have hdistinct : (lines.map satelliteIn).Nodup := by decide +kernel
  have hperm : lines.Perm ["outer)moon", "star)outer", "star)inner"] := by decide +kernel
  have hmap : parse lines = .ok o := rfl
  have hacyclic : o.Acyclic := acyclic_iff.mpr (by decide +kernel)
  have htotal : o.total? = some 4 := by decide +kernel
  have htransfers : o.transfers? "moon" "inner" = some (.ok 1) := by decide +kernel
  obtain ⟨_, hparse, hreordered, -⟩ := line_order_does_not_matter hone
  obtain rfl := Except.ok.inj (hmap.symm.trans hparse)
  obtain ⟨o', hparse', -, ⟨n, hn, hn'⟩, hsame⟩ := hreordered hdistinct hacyclic _ hperm
  obtain rfl := Option.some.inj (hn.symm.trans htotal)
  exact ⟨hone, hdistinct, hperm, ⟨o, hmap, hacyclic⟩, o', hparse', hn',
    (hsame "moon" "inner").1.trans htransfers⟩

end OrbitMap

end Advent.Puzzle.Orbits
