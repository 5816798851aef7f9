/-
Nouns and verbs in the order in which they are tried.

A candidate is a noun and a verb, and what it gives is settled by one run of a machine of its
own.  The search goes on as long as candidates give another number than the target, so it comes
to whatever the first other candidate comes to: that candidate itself, if it gives the target,
or its fault.  `comesTo_searchAmong_iff` says this of any list of candidates, by induction on the
list.  The list of all of them is in order, the noun changing slowest, which is why `finds_iff`
need not mention a list.
-/
import Advent.Proofs.Intcode.Extent
import Advent.Proofs.Puzzle.Diagnostic
import Advent.Puzzle.GravityAssist

namespace Advent

open Intcode

/-! ### Activities under a larger allowance

An activity that runs machines comes to nothing under an allowance that does not suffice.  What it
comes to does not change when the allowance is raised, and this is so of activities one after
another as well, because the allowances that they need can be raised to a common one.
-/

namespace Intcode.Trial

variable {α β : Type}

/-- What an activity comes to under one allowance it comes to under every larger one. -/
def Lasting (activity : Nat → Trial α) : Prop :=
  ∀ steps steps' report, activity steps = some report → steps ≤ steps' → activity steps' = some report

theorem Lasting.unique {activity : Nat → Trial α} (h : Lasting activity) {r r' : Except Fault α}
    (hr : ComesTo activity r) (hr' : ComesTo activity r') : r = r' := by
  obtain ⟨steps, events, hsteps⟩ := hr
  obtain ⟨steps', events', hsteps'⟩ := hr'
  have hlonger := h _ _ _ hsteps (Nat.le_max_left steps steps')
  rw [h _ _ _ hsteps' (Nat.le_max_right steps steps')] at hlonger
  cases hlonger
  rfl

theorem bind_eq_some_iff (t : Trial α) (f : α → Trial β) (report : Report β) :
    t >>= f = some report ↔
      (∃ fault, t = some ⟨report.events, .error fault⟩ ∧ report.result = .error fault) ∨
        ∃ events a later, t = some ⟨events, .ok a⟩ ∧ f a = some ⟨later, report.result⟩ ∧
          report.events = events ++ later := by
  refine ⟨fun h => ?_, ?_⟩
  · change Trial.bind t f = _ at h
    unfold Trial.bind at h
    split at h
    · cases h
    · cases h
      exact Or.inl ⟨_, rfl, rfl⟩
    · split at h
      · cases h
      · cases h
        exact Or.inr ⟨_, _, _, rfl, ‹_›, rfl⟩
  · obtain ⟨events, result⟩ := report
    rintro (⟨fault, rfl, rfl⟩ | ⟨first, a, later, rfl, hlater, rfl⟩)
    · rfl
    · change Trial.bind (some ⟨first, .ok a⟩) f = _
      simp only [Trial.bind, hlater]
      rfl

variable {t : Nat → Trial α} {f : Nat → α → Trial β}

theorem Lasting.bind (ht : Lasting t) (hf : ∀ a, Lasting fun steps => f steps a) :
    Lasting fun steps => t steps >>= f steps := by
  intro steps steps' report h hle
  rcases (bind_eq_some_iff _ _ _).mp h with
    ⟨fault, hsteps, hresult⟩ | ⟨events, a, later, hsteps, hlater, heq⟩
  · exact (bind_eq_some_iff _ _ _).mpr (Or.inl ⟨fault, ht _ _ _ hsteps hle, hresult⟩)
  · exact (bind_eq_some_iff _ _ _).mpr
      (Or.inr ⟨events, a, later, ht _ _ _ hsteps hle, hf a _ _ _ hlater hle, heq⟩)

theorem lasting_ofExcept (r : Except Fault α) : Lasting fun _ => ofExcept r :=
  fun _ _ _ h _ => h

theorem comesTo_ofExcept_iff {r r' : Except Fault α} : ComesTo (fun _ => ofExcept r') r ↔ r = r' := by
  refine ⟨?_, fun h => ⟨0, [], h ▸ rfl⟩⟩
  rintro ⟨_, _, h⟩
  cases h
  rfl

/-- Two activities, the second of which depends on the value of the first. -/
theorem comesTo_bind_iff (ht : Lasting t) (hf : ∀ a, Lasting fun steps => f steps a)
    (r : Except Fault β) :
    ComesTo (fun steps => t steps >>= f steps) r ↔
      (∃ fault, ComesTo t (.error fault) ∧ r = .error fault) ∨
        ∃ a, ComesTo t (.ok a) ∧ ComesTo (fun steps => f steps a) r := by
  refine ⟨?_, ?_⟩
  · rintro ⟨steps, events, h⟩
    rcases (bind_eq_some_iff _ _ _).mp h with
      ⟨fault, hsteps, hresult⟩ | ⟨first, a, later, hsteps, hlater, -⟩
    · exact Or.inl ⟨fault, ⟨steps, _, hsteps⟩, hresult⟩
    · exact Or.inr ⟨a, ⟨steps, first, hsteps⟩, steps, later, hlater⟩
  · rintro (⟨fault, ⟨steps, events, hsteps⟩, rfl⟩ | ⟨a, ⟨steps, events, hsteps⟩, steps', later, hlater⟩)
    · exact ⟨steps, events, (bind_eq_some_iff _ _ _).mpr (Or.inl ⟨fault, hsteps, rfl⟩)⟩
    · -- the larger of the two allowances is enough for both
      have hfirst := ht _ _ _ hsteps (Nat.le_max_left steps steps')
      have hsecond := hf a _ _ _ hlater (Nat.le_max_right steps steps')
      exact ⟨max steps steps', events ++ later, (bind_eq_some_iff _ _ _).mpr
        (Or.inr ⟨events, a, later, hfirst, hsecond, rfl⟩)⟩

end Intcode.Trial

namespace Puzzle.GravityAssist

/-! ### Candidates

What becomes of a candidate is settled by the run of its machine: the word at address zero if it
halts, the fault if it fails, and a fault of its own if it pauses.
-/

/-- A noun and a verb, put into a copy of a machine, come to this result. -/
def Gives (m : Machine) (noun verb : Int) (r : Except Fault Int) : Prop :=
  Trial.ComesTo (fun steps => result steps m noun verb) r

/-- What is made of the end of a run. -/
def verdict (after : Machine) : Except Fault Stop → Except Fault Int
  | .ok .halt => .ok (after.memory.get 0)
  | .ok (.input _) | .ok (.output _) => .error .suspended
  | .error fault => .error fault

variable {m : Machine} {noun verb target : Int} {r : Except Fault Int}

theorem result_eq (steps : Nat) (m : Machine) (noun verb : Int) :
    result steps m noun verb = ((patch m noun verb).run steps).map fun x =>
      ⟨x.1.toOption.toList.map x.2.event, verdict x.2 x.1⟩ := by
  unfold result
  rcases (patch m noun verb).run steps with _ | ⟨fault | stop, after⟩
  · rfl
  · rfl
  · cases stop <;> rfl

theorem gives_iff (m : Machine) (noun verb : Int) (r : Except Fault Int) :
    Gives m noun verb r ↔
      ∃ steps ending after, (patch m noun verb).run steps = some (ending, after) ∧
        r = verdict after ending := by
  refine exists_congr fun steps => ⟨?_, ?_⟩
  · rintro ⟨events, h⟩
    obtain ⟨⟨ending, after⟩, hrun, hreport⟩ :=
      Option.map_eq_some_iff.mp ((result_eq steps m noun verb).symm.trans h)
    cases hreport
    exact ⟨ending, after, hrun, rfl⟩
  · rintro ⟨ending, after, hrun, rfl⟩
    exact ⟨_, (result_eq steps m noun verb).trans (Option.map_eq_some_iff.mpr ⟨_, hrun, rfl⟩)⟩

theorem gives_ok_iff (m : Machine) (noun verb n : Int) :
    Gives m noun verb (.ok n) ↔
      ∃ steps after, (patch m noun verb).run steps = some (.ok .halt, after) ∧
        n = after.memory.get 0 := by
  rw [gives_iff]
  refine exists_congr fun steps => ⟨?_, fun ⟨after, hrun, hn⟩ => ⟨_, after, hrun, congrArg _ hn⟩⟩
  rintro ⟨fault | stop, after, hrun, hn⟩
  · cases hn
  · cases stop <;> cases hn
    exact ⟨after, hrun, rfl⟩

theorem gives_error_iff (m : Machine) (noun verb : Int) (fault : Fault) :
    Gives m noun verb (.error fault) ↔
      ∃ steps after, (patch m noun verb).run steps = some (.error fault, after) ∨
        fault = .suspended ∧ ∃ stop, stop ≠ .halt ∧
          (patch m noun verb).run steps = some (.ok stop, after) := by
  rw [gives_iff]
  refine exists_congr fun steps => ⟨?_, ?_⟩
  · rintro ⟨other | stop, after, hrun, hfault⟩
    · cases hfault
      exact ⟨after, Or.inl hrun⟩
    · refine ⟨after, Or.inr ?_⟩
      cases stop with
      | halt => cases hfault
      | input destination =>
          cases hfault
          exact ⟨rfl, .input destination, nofun, hrun⟩
      | output value =>
          cases hfault
          exact ⟨rfl, .output value, nofun, hrun⟩
  · rintro ⟨after, hrun | ⟨rfl, stop, hstop, hrun⟩⟩
    · exact ⟨_, after, hrun, rfl⟩
    · refine ⟨_, after, hrun, ?_⟩
      cases stop with
      | halt => exact absurd rfl hstop
      | input _ | output _ => rfl

theorem result_lasting (m : Machine) (noun verb : Int) :
    Trial.Lasting fun steps => result steps m noun verb := by
  intro steps steps' report h hle
  obtain ⟨x, hrun, hreport⟩ := Option.map_eq_some_iff.mp ((result_eq steps m noun verb).symm.trans h)
  have hrun' : (patch m noun verb).run steps' = some x := by
    unfold Machine.run at hrun ⊢
    split at hrun
    · rwa [if_pos ‹_›]
    · rw [if_neg ‹_›]
      exact Machine.drive_mono hrun hle
  exact (result_eq steps' m noun verb).trans (Option.map_eq_some_iff.mpr ⟨x, hrun', hreport⟩)

/-! ### The list of candidates -/

/-- A candidate gives another number than the target. -/
def Misses (m : Machine) (target : Int) (p : Nat × Nat) : Prop :=
  ∃ n, n ≠ target ∧ Gives m p.1 p.2 (.ok n)

/-- A candidate ends the search, which comes to this. -/
def Decides (m : Machine) (target : Int) (p : Nat × Nat) (r : Except Fault (Nat × Nat)) : Prop :=
  (Gives m p.1 p.2 (.ok target) ∧ r = .ok p) ∨
    ∃ fault, Gives m p.1 p.2 (.error fault) ∧ r = .error fault

/-- What the search does with the number that the first candidate gives. -/
def continueWith (m : Machine) (target : Int) (p : Nat × Nat) (rest : List (Nat × Nat)) (steps : Nat)
    (n : Int) : Trial (Nat × Nat) :=
  if n = target then Trial.ofExcept (.ok p) else searchAmong steps m target rest

variable {p : Nat × Nat} {rest : List (Nat × Nat)}

theorem continueWith_lasting (hrest : Trial.Lasting fun steps => searchAmong steps m target rest) (n : Int) :
    Trial.Lasting fun steps => continueWith m target p rest steps n := by
  by_cases hn : n = target
  · simp only [continueWith, if_pos hn]
    exact Trial.lasting_ofExcept _
  · simp only [continueWith, if_neg hn]
    exact hrest

theorem searchAmong_lasting (m : Machine) (target : Int) (ps : List (Nat × Nat)) :
    Trial.Lasting fun steps => searchAmong steps m target ps := by
  induction ps with
  | nil => exact Trial.lasting_ofExcept _
  | cons p rest ih => exact (result_lasting m p.1 p.2).bind (continueWith_lasting ih)

/-- **One candidate ends the search or is passed over.** -/
theorem comesTo_searchAmong_cons_iff (m : Machine) (target : Int) (p : Nat × Nat)
    (rest : List (Nat × Nat)) (r : Except Fault (Nat × Nat)) :
    Trial.ComesTo (fun steps => searchAmong steps m target (p :: rest)) r ↔
      Decides m target p r ∨
        Misses m target p ∧ Trial.ComesTo (fun steps => searchAmong steps m target rest) r := by
  have hcontinue : ∀ n, Trial.ComesTo (fun steps => continueWith m target p rest steps n) r ↔
      if n = target then r = .ok p else Trial.ComesTo (fun steps => searchAmong steps m target rest) r := by
    intro n
    by_cases hn : n = target
    · simp only [continueWith, if_pos hn]
      exact Trial.comesTo_ofExcept_iff
    · simp only [continueWith, if_neg hn]
  refine (Trial.comesTo_bind_iff (result_lasting m p.1 p.2)
    (continueWith_lasting (searchAmong_lasting m target rest)) r).trans ?_
  simp only [hcontinue]
  refine ⟨?_, ?_⟩
  · rintro (⟨fault, hfault, rfl⟩ | ⟨n, hn, hcomes⟩)
    · exact Or.inl (Or.inr ⟨fault, hfault, rfl⟩)
    · split at hcomes
      · rename_i htarget
        exact Or.inl (Or.inl ⟨htarget ▸ hn, hcomes⟩)
      · exact Or.inr ⟨⟨n, ‹_›, hn⟩, hcomes⟩
  · rintro ((⟨hgives, rfl⟩ | ⟨fault, hfault, rfl⟩) | ⟨⟨n, hne, hn⟩, hcomes⟩)
    · exact Or.inr ⟨target, hgives, by rw [if_pos rfl]⟩
    · exact Or.inl ⟨fault, hfault, rfl⟩
    · exact Or.inr ⟨n, hn, by rwa [if_neg hne]⟩

/-- **The first candidate that gives the target or a fault decides.** -/
theorem comesTo_searchAmong_iff (m : Machine) (target : Int) (ps : List (Nat × Nat))
    (r : Except Fault (Nat × Nat)) :
    Trial.ComesTo (fun steps => searchAmong steps m target ps) r ↔
      (∃ before p after, ps = before ++ p :: after ∧ (∀ q ∈ before, Misses m target q) ∧
        Decides m target p r) ∨
      (∀ q ∈ ps, Misses m target q) ∧ r = Fault.raise (.noNounVerb target) := by
  induction ps with
  | nil =>
      refine Trial.comesTo_ofExcept_iff.trans ?_
      simp
  | cons p rest ih =>
      rw [comesTo_searchAmong_cons_iff, ih]
      refine ⟨?_, ?_⟩
      -- the first candidate decides, or a later one does, or none
      · rintro (hdecides | ⟨hmiss, ⟨before, q, after, rfl, hbefore, hdecides⟩ | ⟨hrest, rfl⟩⟩)
        · exact Or.inl ⟨[], p, rest, rfl, nofun, hdecides⟩
        · exact Or.inl ⟨p :: before, q, after, rfl, List.forall_mem_cons.mpr ⟨hmiss, hbefore⟩, hdecides⟩
        · exact Or.inr ⟨List.forall_mem_cons.mpr ⟨hmiss, hrest⟩, rfl⟩
      · rintro (⟨before, q, after, hsplit, hbefore, hdecides⟩ | ⟨hall, rfl⟩)
        · cases before with
          | nil =>
              obtain ⟨rfl, rfl⟩ := List.cons.inj hsplit
              exact Or.inl hdecides
          | cons first before =>
              obtain ⟨rfl, rfl⟩ := List.cons.inj hsplit
              obtain ⟨hmiss, hbefore⟩ := List.forall_mem_cons.mp hbefore
              exact Or.inr ⟨hmiss, Or.inl ⟨before, q, after, rfl, hbefore, hdecides⟩⟩
        · obtain ⟨hmiss, hrest⟩ := List.forall_mem_cons.mp hall
          exact Or.inr ⟨hmiss, Or.inr ⟨hrest, rfl⟩⟩

/-- The search ends when each candidate that it comes to does. -/
theorem exists_comesTo_searchAmong {ps : List (Nat × Nat)}
    (hends : ∀ before p after, ps = before ++ p :: after → (∀ q ∈ before, Misses m target q) →
      ∃ r, Gives m p.1 p.2 r) :
    ∃ r, Trial.ComesTo (fun steps => searchAmong steps m target ps) r := by
  induction ps with
  | nil => exact ⟨_, Trial.comesTo_ofExcept_iff.mpr rfl⟩
  | cons p rest ih =>
      simp only [comesTo_searchAmong_cons_iff]
      obtain ⟨fault | n, hp⟩ := hends [] p rest rfl nofun
      · exact ⟨_, Or.inl (Or.inr ⟨fault, hp, rfl⟩)⟩
      · by_cases hn : n = target
        · exact ⟨_, Or.inl (Or.inl ⟨hn ▸ hp, rfl⟩)⟩
        · obtain ⟨r, hr⟩ := ih fun before q after hsplit hbefore =>
            hends (p :: before) q after (by rw [hsplit]; rfl)
              (List.forall_mem_cons.mpr ⟨⟨n, hn, hp⟩, hbefore⟩)
          exact ⟨r, Or.inr ⟨⟨n, hn, hp⟩, hr⟩⟩

/-! ### The order of the candidates -/

/-- Both numbers are among those to try. -/
def InRange (p : Nat × Nat) : Prop := p.1 < 100 ∧ p.2 < 100

/-- One pair comes before another, the noun changing slowest. -/
def Before (q p : Nat × Nat) : Prop := q.1 < p.1 ∨ q.1 = p.1 ∧ q.2 < p.2

theorem mem_pairs_iff (p : Nat × Nat) : p ∈ pairs ↔ InRange p := by
  obtain ⟨noun, verb⟩ := p
  simp [pairs, limit, InRange]

/-- The noun changes slowest. -/
theorem pairs_in_order : pairs.Pairwise Before := by
  refine List.pairwise_flatMap.mpr ⟨fun noun _ => ?_, ?_⟩
  · exact List.pairwise_map.mpr (List.pairwise_lt_range.imp fun hlt => Or.inr ⟨rfl, hlt⟩)
  · refine List.pairwise_lt_range.imp fun {noun noun'} hlt p hp q hq => ?_
    obtain ⟨verb, -, rfl⟩ := List.mem_map.mp hp
    obtain ⟨verb', -, rfl⟩ := List.mem_map.mp hq
    exact Or.inl hlt

/-- The candidates before one are those with a smaller noun, or the same noun and a smaller verb. -/
theorem mem_before_iff {before after : List (Nat × Nat)} (hsplit : pairs = before ++ p :: after)
    (q : Nat × Nat) : q ∈ before ↔ InRange q ∧ Before q p := by
  have horder := pairs_in_order
  rw [hsplit, List.pairwise_append, List.pairwise_cons] at horder
  obtain ⟨-, ⟨hafter, -⟩, hbefore⟩ := horder
  rw [← mem_pairs_iff, hsplit, List.mem_append, List.mem_cons]
  refine ⟨fun hq => ⟨Or.inl hq, hbefore q hq p List.mem_cons_self⟩, ?_⟩
  rintro ⟨hq | rfl | hq, hlt⟩
  · exact hq
  · unfold Before at hlt
    omega
  · have hgt := hafter q hq
    unfold Before at hlt hgt
    omega

/-- The search comes to a candidate: all those before it give another number than the target. -/
def Tried (m : Machine) (target : Int) (p : Nat × Nat) : Prop :=
  InRange p ∧ ∀ q, InRange q → Before q p → Misses m target q

/-- The search for a target comes to this. -/
def Finds (m : Machine) (target : Int) (r : Except Fault (Nat × Nat)) : Prop :=
  Trial.ComesTo (fun steps => search steps m target) r

/-- **The search finds what the first deciding candidate comes to.** -/
theorem finds_iff (m : Machine) (target : Int) (r : Except Fault (Nat × Nat)) :
    Finds m target r ↔
      (∃ p, Tried m target p ∧ Decides m target p r) ∨
      (∀ q, InRange q → Misses m target q) ∧ r = .error (Fault.noNounVerb target).reported := by
  refine (comesTo_searchAmong_iff m target pairs r).trans (or_congr ⟨?_, ?_⟩ ?_)
  · rintro ⟨before, p, after, hsplit, hbefore, hdecides⟩
    have hmem : p ∈ pairs := by simp [hsplit]
    refine ⟨p, ⟨(mem_pairs_iff p).mp hmem, fun q hq hlt => ?_⟩, hdecides⟩
    exact hbefore q ((mem_before_iff hsplit q).mpr ⟨hq, hlt⟩)
  · rintro ⟨p, ⟨hrange, hmisses⟩, hdecides⟩
    obtain ⟨before, after, hsplit⟩ := List.append_of_mem ((mem_pairs_iff p).mpr hrange)
    refine ⟨before, p, after, hsplit, fun q hq => ?_, hdecides⟩
    obtain ⟨hq, hlt⟩ := (mem_before_iff hsplit q).mp hq
    exact hmisses q hq hlt
  · simp only [mem_pairs_iff, Fault.raise]

/-- If every candidate that the search comes to gives something, so does the search. -/
theorem exists_finds (hends : ∀ p, Tried m target p → ∃ r, Gives m p.1 p.2 r) :
    ∃ r, Finds m target r := by
  refine exists_comesTo_searchAmong fun before p after hsplit hbefore => hends p ⟨?_, fun q hq hlt => ?_⟩
  · exact (mem_pairs_iff p).mp (by simp [hsplit])
  · exact hbefore q ((mem_before_iff hsplit q).mpr ⟨hq, hlt⟩)

theorem finds_unique {r r' : Except Fault (Nat × Nat)} (h : Finds m target r) (h' : Finds m target r') :
    r = r' :=
  (searchAmong_lasting m target pairs).unique h h'

/-! ### The machine of a candidate

The machine of a candidate differs from the given one in two cells, and it is a copy, so its extent
is that of its cells.
-/

theorem get_patch (m : Machine) (noun verb a : Int) :
    (patch m noun verb).memory.get a =
      if a = 2 then verb else if a = 1 then noun else m.memory.get a := by
  show (((m.memory.copy.put 1 noun).put 2 verb).get a) = _
  rw [Memory.get_put, Memory.get_put]
  rfl

/-- Whatever a memory was loaded from and whatever was written to it, the copy reaches as far. -/
theorem extent_patch {cells : Std.TreeMap Int Int} {writes : List (Int × Int)}
    (hm : m.memory = (Memory.ofMap cells).putAll writes) (noun verb : Int) :
    (patch m noun verb).memory.extent = max m.memory.extent 3 := by
  show (((m.memory.copy.put 1 noun).put 2 verb).extent) = _
  rw [Memory.extent_put, Memory.extent_put, hm]
  have hcopy := Memory.extent_copy_putAll cells writes
  by_cases htracked : Memory.Tracked cells writes
  · rw [hcopy.unique (Memory.isExtentOf_of_tracked cells writes htracked)]
    omega
  · -- only addresses below -1 were written, and nothing was loaded
    have hzero := Memory.extent_of_not_tracked cells writes htracked
    rcases hcopy with ⟨hcopy, -⟩ | ⟨htop, -⟩
    · omega
    · have hlt := Memory.lt_extent_of_touched cells writes htop
      omega

theorem Gives.kind_ne {fault : Fault} (h : Gives m noun verb (.error fault)) :
    fault.kind ≠ .noSolution := by
  obtain ⟨steps, after, hrun | ⟨rfl, -⟩⟩ := (gives_error_iff m noun verb fault).mp h
  · have hkind := Machine.drive_fault_kind hrun
    intro h
    simp [h, Machine.faultKinds, Machine.decodingKinds] at hkind
  · decide

theorem reported_noNounVerb (target : Int) :
    (Fault.noNounVerb target).reported = if Numeral.fits target then .noNounVerb target else .unwritable := by
  simp [Fault.reported, Fault.integers]

end Puzzle.GravityAssist

end Advent
