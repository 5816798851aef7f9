/-
A search that leaves its machine alone.

The search may be carried out with objects: the machine is copied for every candidate, the noun
and the verb are put into the copy, and the copy is run.  `Session` is that activity in terms of
calls on a store.  Every call after the first concerns the copy, which has a memory of its own, so
whatever the store held before is as it was, and the next candidate finds the machine unchanged.
-/
import Advent.Proofs.Intcode.Failure
import Advent.Proofs.Intcode.Objects
import Advent.Proofs.Puzzle.Candidates

namespace Advent

open Intcode

namespace Intcode.Store

variable {s s' : Store} {c r : MachineRef}

/-! ### Work on a machine of its own

A machine with a memory that nobody else has can be put to work without anything else changing.
Three things are done to the copy for a candidate: it is made, written to twice, and run.
-/

/-- The machine is in the later store, with a memory that nothing in the earlier store has, and
all machines of the earlier store are as they were. -/
structure Beside (s s' : Store) (c : MachineRef) : Prop where
  holds : s'.Holds c
  kept : ∀ p, s.Holds p → s'.Holds p ∧ s'.machine p = s.machine p
  apart : ∀ p, s.Holds p → (s'.frame p).memory ≠ (s'.frame c).memory

theorem beside_addMachine (s : Store) (m : Machine) : s.Beside (s.addMachine m).2 (s.addMachine m).1 := by
  refine ⟨holds_addMachine s m, fun p hp => ⟨hp.addMachine m, machine_addMachine_old hp m⟩,
    fun p hp => ?_⟩
  rw [frame_addMachine_old hp, frame_addMachine_new]
  intro hsame
  have hlt := hp.memory
  rw [hsame] at hlt
  exact Nat.lt_irrefl _ hlt

theorem Beside.setMachine (h : s.Beside s' c) (m : Machine) : s.Beside (s'.setMachine c m) c := by
  refine ⟨h.holds.setMachine c m, fun p hp => ?_, fun p hp => ?_⟩
  · obtain ⟨hholds, hsame⟩ := h.kept p hp
    exact ⟨hholds.setMachine c m, (machine_setMachine_ne m (h.apart p hp)).trans hsame⟩
  · rw [frame_setMachine_memory, frame_setMachine_memory]
    exact h.apart p hp

theorem Beside.addStop (h : s.Beside s' c) (stop : Stop) : s.Beside (s'.addStop c stop).2 c :=
  ⟨⟨h.holds.frame, h.holds.memory⟩,
    fun p hp => ⟨⟨(h.kept p hp).1.frame, (h.kept p hp).1.memory⟩, (h.kept p hp).2⟩, h.apart⟩

theorem perform_put (steps : Nat) (s : Store) (c : MachineRef) {a : Int} (ha : 0 ≤ a) (value : Int) :
    s.perform steps (.put c a value) = some (.ok .done,
      s.setMachine c { s.machine c with memory := (s.machine c).memory.put a value }) := by
  have haddress : address a = .ok a := if_neg (by omega)
  simp only [perform, Machine.put, haddress]
  rfl

/-- A copy stands beside all that was there. -/
theorem beside_of_copy {steps : Nat} (h : s.perform steps (.copy r) = some (.ok (.machine c), s')) :
    s.Beside s' c ∧ s'.machine c = (s.machine r).copy := by
  have hcopy : s.perform steps (.copy r) =
      some (.ok (.machine (s.addMachine (s.machine r).copy).1), (s.addMachine (s.machine r).copy).2) := rfl
  obtain ⟨rfl, rfl⟩ : (s.addMachine (s.machine r).copy).1 = c ∧ (s.addMachine (s.machine r).copy).2 = s' := by
    simpa [hcopy] using h
  exact ⟨s.beside_addMachine _, s.machine_addMachine _⟩

theorem Beside.put {steps : Nat} {m : Machine} {a value : Int} {last : Store} (h : s.Beside s' c)
    (hm : s'.machine c = m) (ha : 0 ≤ a)
    (hput : s'.perform steps (.put c a value) = some (.ok .done, last)) :
    s.Beside last c ∧ last.machine c = { m with memory := m.memory.put a value } := by
  rw [perform_put steps s' c ha, hm] at hput
  cases hput
  exact ⟨h.setMachine _, machine_setMachine h.holds _⟩

theorem perform_run_eq (steps : Nat) (s : Store) (c : MachineRef) :
    s.perform steps (.run c) =
      ((s.machine c).run steps).map fun x => s.settle c (x.1.map some, x.2) := by
  show ((s.machine c).run steps).bind _ = _
  rcases (s.machine c).run steps with _ | ⟨ending, after⟩ <;> rfl

/-- A run in a store is the run of the machine that is there. -/
theorem Beside.run {steps : Nat} {last : Store} {reply : Except Fault Reply} (h : s.Beside s' c)
    (hrun : s'.perform steps (.run c) = some (reply, last)) :
    s.Beside last c ∧ ∃ ending, (s'.machine c).run steps = some (ending, last.machine c) ∧
      ((∃ fault, ending = .error fault ∧ reply = .error fault) ∨
        ∃ q, ending = .ok (last.stopped q).stop ∧ reply = .ok (.stopped q)) := by
  rw [perform_run_eq] at hrun
  obtain ⟨⟨ending, after⟩, hmachine, hsettled⟩ := Option.map_eq_some_iff.mp hrun
  have hbeside := h.setMachine after
  have hafter := machine_setMachine h.holds after
  cases ending with
  | error fault =>
      cases hsettled
      exact ⟨hbeside, .error fault, hmachine.trans (by rw [hafter]), Or.inl ⟨fault, rfl, rfl⟩⟩
  | ok stop =>
      obtain ⟨rfl, rfl⟩ := Prod.mk.inj hsettled
      refine ⟨hbeside.addStop stop, .ok stop, hmachine.trans ?_, Or.inr ⟨_, ?_, rfl⟩⟩
      · exact congrArg (fun m => some (Except.ok stop, m)) hafter.symm
      · exact congrArg (fun h : Stopped => Except.ok h.stop) (stopped_addStop_new _ c stop).symm

end Intcode.Store

namespace Puzzle.GravityAssist

/-! ### The search with objects

For one candidate after another a copy is prepared and run.  Nothing of what was done for a
candidate is there for the next one to see but the copies, which it does not look at.
-/

/-- A copy of a machine is made and a noun and a verb are put into it, by calls on a store. -/
def Prepares (steps : Nat) (s : Store) (r : MachineRef) (p : Nat × Nat) (c : MachineRef) (s' : Store) :
    Prop :=
  ∃ copied noun, s.perform steps (.copy r) = some (.ok (.machine c), copied) ∧
    copied.perform steps (.put c 1 p.1) = some (.ok .done, noun) ∧
    noun.perform steps (.put c 2 p.2) = some (.ok .done, s')

/-- A candidate is tried by calls on a store: the copy that was made for it is run, and address
zero is read of it if it has halted. -/
inductive Tries (steps : Nat) (s : Store) (r : MachineRef) (p : Nat × Nat) :
    Except Fault Int → Store → Prop where
  | halts {c : MachineRef} {q : StopRef} {prepared s' : Store} {n : Int}
      (hprepare : Prepares steps s r p c prepared)
      (hrun : prepared.perform steps (.run c) = some (.ok (.stopped q), s'))
      (hstop : (s'.stopped q).stop = .halt)
      (hget : s'.perform steps (.get c 0) = some (.ok (.number n), s')) : Tries steps s r p (.ok n) s'
  | pauses {c : MachineRef} {q : StopRef} {prepared s' : Store}
      (hprepare : Prepares steps s r p c prepared)
      (hrun : prepared.perform steps (.run c) = some (.ok (.stopped q), s'))
      (hstop : (s'.stopped q).stop ≠ .halt) : Tries steps s r p (.error .suspended) s'
  | fails {c : MachineRef} {prepared s' : Store} {fault : Fault}
      (hprepare : Prepares steps s r p c prepared)
      (hrun : prepared.perform steps (.run c) = some (.error fault, s')) :
      Tries steps s r p (.error fault) s'

/-- Some candidates are tried by calls on a store, one after another, until one decides. -/
inductive Session (steps : Nat) (r : MachineRef) (target : Int) :
    Store → List (Nat × Nat) → Except Fault (Nat × Nat) → Store → Prop where
  | exhausted (s : Store) : Session steps r target s [] (.error (Fault.noNounVerb target).reported) s
  | found {s s' : Store} {p : Nat × Nat} {rest : List (Nat × Nat)}
      (htry : Tries steps s r p (.ok target) s') : Session steps r target s (p :: rest) (.ok p) s'
  | failed {s s' : Store} {p : Nat × Nat} {rest : List (Nat × Nat)} {fault : Fault}
      (htry : Tries steps s r p (.error fault) s') :
      Session steps r target s (p :: rest) (.error fault) s'
  | next {s s' last : Store} {p : Nat × Nat} {rest : List (Nat × Nat)} {n : Int}
      {result : Except Fault (Nat × Nat)} (htry : Tries steps s r p (.ok n) s') (hne : n ≠ target)
      (hrest : Session steps r target s' rest result last) :
      Session steps r target s (p :: rest) result last

variable {steps : Nat} {s s' : Store} {r c : MachineRef} {p : Nat × Nat} {outcome : Except Fault Int}

theorem exists_prepares (steps : Nat) (s : Store) (r : MachineRef) (p : Nat × Nat) :
    ∃ c s', Prepares steps s r p c s' :=
  ⟨_, _, _, _, rfl, Store.perform_put steps _ _ (by decide) _, Store.perform_put steps _ _ (by decide) _⟩

/-- The copy stands beside the machine, with the noun and the verb in its own memory. -/
theorem Prepares.beside (h : Prepares steps s r p c s') :
    s.Beside s' c ∧ s'.machine c = patch (s.machine r) p.1 p.2 := by
  obtain ⟨copied, noun, hcopy, hnoun, hverb⟩ := h
  obtain ⟨hcopied, hmachine⟩ := Store.beside_of_copy hcopy
  obtain ⟨hnoun, hmachine⟩ := hcopied.put hmachine (by decide) hnoun
  exact hnoun.put hmachine (by decide) hverb

/-- Running the copy runs the machine of the candidate. -/
theorem Prepares.run {prepared : Store} {reply : Except Fault Reply} (h : Prepares steps s r p c prepared)
    (hrun : prepared.perform steps (.run c) = some (reply, s')) :
    s.Beside s' c ∧ ∃ ending, (patch (s.machine r) p.1 p.2).run steps = some (ending, s'.machine c) ∧
      ((∃ fault, ending = .error fault ∧ reply = .error fault) ∨
        ∃ q, ending = .ok (s'.stopped q).stop ∧ reply = .ok (.stopped q)) := by
  obtain ⟨hprepared, hpatch⟩ := h.beside
  rw [← hpatch]
  exact hprepared.run hrun

theorem verdict_of_ne_halt {stop : Stop} {after : Machine} (h : stop ≠ .halt) :
    verdict after (.ok stop) = .error .suspended := by
  cases stop with
  | halt => exact absurd rfl h
  | input _ | output _ => rfl

/-- What a try comes to, and that it concerns the copy only. -/
theorem Tries.verdict_eq (h : Tries steps s r p outcome s') :
    (∃ c, s.Beside s' c) ∧ ∃ ending after,
      (patch (s.machine r) p.1 p.2).run steps = some (ending, after) ∧
        outcome = verdict after ending := by
  cases h with
  | halts hprepare hrun hstop hget =>
      obtain ⟨hbeside, ending, hrun, ⟨fault, -, hreply⟩ | ⟨q, rfl, hreply⟩⟩ := hprepare.run hrun
      · cases hreply
      · cases hreply
        cases hget
        rw [hstop] at hrun
        exact ⟨⟨_, hbeside⟩, _, _, hrun, rfl⟩
  | pauses hprepare hrun hstop =>
      obtain ⟨hbeside, ending, hrun, ⟨fault, -, hreply⟩ | ⟨q, rfl, hreply⟩⟩ := hprepare.run hrun
      · cases hreply
      · cases hreply
        exact ⟨⟨_, hbeside⟩, _, _, hrun, (verdict_of_ne_halt hstop).symm⟩
  | fails hprepare hrun =>
      obtain ⟨hbeside, ending, hrun, ⟨fault, rfl, hreply⟩ | ⟨q, -, hreply⟩⟩ := hprepare.run hrun
      · cases hreply
        exact ⟨⟨_, hbeside⟩, _, _, hrun, rfl⟩
      · cases hreply

/-- A candidate whose run ends can be tried. -/
theorem exists_tries {ending : Except Fault Stop} {after : Machine}
    (hrun : (patch (s.machine r) p.1 p.2).run steps = some (ending, after)) :
    ∃ s', Tries steps s r p (verdict after ending) s' := by
  obtain ⟨c, prepared, hprepare⟩ := exists_prepares steps s r p
  obtain ⟨⟨reply, s'⟩, hperform⟩ : ∃ x, prepared.perform steps (.run c) = some x :=
    ⟨_, (Store.perform_run_eq steps prepared c).trans
      (by rw [hprepare.beside.2, hrun, Option.map_some])⟩
  obtain ⟨-, ending', hrun', hreply⟩ := hprepare.run hperform
  rw [hrun] at hrun'
  cases hrun'
  rcases hreply with ⟨fault, rfl, rfl⟩ | ⟨q, rfl, rfl⟩
  · exact ⟨s', .fails hprepare hperform⟩
  · by_cases hstop : (s'.stopped q).stop = .halt
    · refine ⟨s', ?_⟩
      rw [hstop]
      exact .halts hprepare hperform hstop rfl
    · refine ⟨s', ?_⟩
      rw [verdict_of_ne_halt hstop]
      exact .pauses hprepare hperform hstop

/-- A try comes to what the search makes of the candidate. -/
theorem Tries.report (h : Tries steps s r p outcome s') :
    ∃ events, result steps (s.machine r) p.1 p.2 = some ⟨events, outcome⟩ := by
  obtain ⟨-, ending, after, hrun, rfl⟩ := h.verdict_eq
  exact ⟨_, (result_eq steps _ _ _).trans (Option.map_eq_some_iff.mpr ⟨_, hrun, rfl⟩)⟩

theorem exists_tries_of_report {events : List Event}
    (h : result steps (s.machine r) p.1 p.2 = some ⟨events, outcome⟩) :
    ∃ s', Tries steps s r p outcome s' := by
  obtain ⟨⟨ending, after⟩, hrun, hreport⟩ :=
    Option.map_eq_some_iff.mp ((result_eq steps _ _ _).symm.trans h)
  cases hreport
  exact exists_tries hrun

/-- All machines that were there are as they were. -/
def Keeps (s s' : Store) : Prop := ∀ q, s.Holds q → s'.Holds q ∧ s'.machine q = s.machine q

theorem Tries.keeps (h : Tries steps s r p outcome s') : Keeps s s' := by
  obtain ⟨⟨c, hbeside⟩, -⟩ := h.verdict_eq
  exact hbeside.kept

variable {m : Machine} {target : Int} {ps : List (Nat × Nat)} {found : Except Fault (Nat × Nat)}

theorem Session.keeps (h : Session steps r target s ps found s') : Keeps s s' := by
  induction h with
  | exhausted s => exact fun q hq => ⟨hq, rfl⟩
  | found htry => exact htry.keeps
  | failed htry => exact htry.keeps
  | next htry hne hrest ih =>
      intro q hq
      obtain ⟨hholds, hsame⟩ := htry.keeps q hq
      obtain ⟨hlast, hsame'⟩ := ih q hholds
      exact ⟨hlast, hsame'.trans hsame⟩

/-- Calls on a store come to what the search comes to: every candidate finds the machine as it
was at first. -/
theorem Session.report (h : Session steps r target s ps found s') (hr : s.Holds r)
    (hm : s.machine r = m) : ∃ events, searchAmong steps m target ps = some ⟨events, found⟩ := by
  induction h with
  | exhausted s => exact ⟨[], rfl⟩
  | found htry =>
      obtain ⟨events, hresult⟩ := htry.report
      rw [hm] at hresult
      refine ⟨events ++ [], (Trial.bind_eq_some_iff _ _ _).mpr (Or.inr ⟨_, _, _, hresult, ?_, rfl⟩)⟩
      exact if_pos rfl
  | failed htry =>
      obtain ⟨events, hresult⟩ := htry.report
      rw [hm] at hresult
      exact ⟨events, (Trial.bind_eq_some_iff _ _ _).mpr (Or.inl ⟨_, hresult, rfl⟩)⟩
  | next htry hne hrest ih =>
      obtain ⟨events, hresult⟩ := htry.report
      obtain ⟨hholds, hsame⟩ := htry.keeps r hr
      obtain ⟨later, hlater⟩ := ih hholds (hsame.trans hm)
      rw [hm] at hresult
      refine ⟨events ++ later, (Trial.bind_eq_some_iff _ _ _).mpr (Or.inr ⟨_, _, _, hresult, ?_, rfl⟩)⟩
      exact (if_neg hne).trans hlater

theorem exists_session :
    ∀ {ps : List (Nat × Nat)} {s : Store} {events : List Event}, s.Holds r → s.machine r = m →
      searchAmong steps m target ps = some ⟨events, found⟩ →
        ∃ s', Session steps r target s ps found s' := by
  intro ps
  induction ps with
  | nil =>
      intro s events _ _ h
      cases h
      exact ⟨s, .exhausted s⟩
  | cons p rest ih =>
      intro s events hr hm h
      rcases (Trial.bind_eq_some_iff _ _ _).mp h with
        ⟨fault, hresult, hfound⟩ | ⟨_, n, later, hresult, hlater, -⟩
      · obtain rfl : found = .error fault := hfound
        rw [← hm] at hresult
        obtain ⟨s', htry⟩ := exists_tries_of_report hresult
        exact ⟨s', .failed htry⟩
      · rw [← hm] at hresult
        obtain ⟨s', htry⟩ := exists_tries_of_report hresult
        obtain ⟨hholds, hsame⟩ := htry.keeps r hr
        by_cases hn : n = target
        · subst hn
          obtain rfl : found = .ok p := by
            have hpure := (if_pos rfl).symm.trans hlater
            cases hpure
            rfl
          exact ⟨s', .found htry⟩
        · obtain ⟨last, hrest⟩ := ih hholds (hsame.trans hm) ((if_neg hn).symm.trans hlater)
          exact ⟨last, .next htry hn hrest⟩

/-! ### The search and its candidates -/

/-- A machine in the position of another one, with a noun and a verb in its memory. -/
structure Patched (m : Machine) (noun verb : Int) (m' : Machine) : Prop where
  get : ∀ a, m'.memory.get a = if a = 2 then verb else if a = 1 then noun else m.memory.get a
  extent : ∀ cells writes, m.memory = (Memory.ofMap cells).putAll writes →
    m'.memory.extent = max m.memory.extent 3
  bounded : m'.bounded = m.bounded
  pc : m'.pc = m.pc
  relativeBase : m'.relativeBase = m.relativeBase
  fresh : m'.started = false

theorem patched_patch (m : Machine) (noun verb : Int) : Patched m noun verb (patch m noun verb) where
  get := get_patch m noun verb
  extent := fun _ _ hm => extent_patch hm noun verb
  bounded := rfl
  pc := rfl
  relativeBase := rfl
  fresh := rfl

theorem finds_ok_iff : Finds m target (.ok p) ↔ Tried m target p ∧ Gives m p.1 p.2 (.ok target) := by
  rw [finds_iff]
  refine ⟨?_, fun ⟨htried, hgives⟩ => Or.inl ⟨p, htried, Or.inl ⟨hgives, rfl⟩⟩⟩
  rintro (⟨q, htried, ⟨hgives, hp⟩ | ⟨fault, -, hp⟩⟩ | ⟨-, hp⟩)
  · cases hp
    exact ⟨htried, hgives⟩
  · cases hp
  · cases hp

theorem finds_error_iff (fault : Fault) :
    Finds m target (.error fault) ↔
      (∃ p, Tried m target p ∧ Gives m p.1 p.2 (.error fault)) ∨
      (∀ p, InRange p → Misses m target p) ∧ fault = (Fault.noNounVerb target).reported := by
  rw [finds_iff]
  refine or_congr (exists_congr fun p => and_congr_right fun _ => ⟨?_, ?_⟩)
    (and_congr_right fun _ => ⟨Except.error.inj, congrArg _⟩)
  · rintro (⟨-, hfault⟩ | ⟨fault', hgives, hfault⟩)
    · cases hfault
    · cases hfault
      exact hgives
  · exact fun hgives => Or.inr ⟨fault, hgives, rfl⟩

/-- **The search and the session come to the same.** -/
theorem finds_iff_session (hr : s.Holds r) (hm : s.machine r = m) :
    Finds m target found ↔ ∃ steps s', Session steps r target s pairs found s' := by
  refine exists_congr fun steps => ⟨?_, ?_⟩
  · rintro ⟨events, h⟩
    exact exists_session hr hm h
  · rintro ⟨s', h⟩
    exact h.report hr hm

/-- **The first candidate that gives the target or a fault decides the search.**  It ends if
every candidate does that it comes to.  It finds the candidate, or fails as the candidate does,
and it has no solution just if all candidates halt with other numbers.  A candidate is run in the
position of the machine with two cells replaced, whatever was tried before and whether or not
the machine was run, and the machine is left as it was. -/
theorem first_deciding_candidate_decides (m : Machine) (target : Int)
    (hends : ∀ p, Tried m target p → ∃ result, Gives m p.1 p.2 result) :
    (∃! result, Finds m target result) ∧
    (∀ p, Finds m target (.ok p) ↔ Tried m target p ∧ Gives m p.1 p.2 (.ok target)) ∧
    (∀ fault, Finds m target (.error fault) ↔
      (∃ p, Tried m target p ∧ Gives m p.1 p.2 (.error fault)) ∨
      (∀ p, InRange p → Misses m target p) ∧
        fault = if (Nat.digits 10 target.natAbs).length ≤ 4300 then .noNounVerb target else .unwritable) ∧
    ((∃ fault, Finds m target (.error fault) ∧ fault.kind = .noSolution) ↔
      (∀ p, InRange p → Misses m target p) ∧ (Nat.digits 10 target.natAbs).length ≤ 4300) ∧
    (∀ noun verb,
      Patched m noun verb (patch m noun verb) ∧
      (∀ began, patch { m with started := began } noun verb = patch m noun verb) ∧
      (∀ n, Gives m noun verb (.ok n) ↔
        ∃ steps after, (patch m noun verb).run steps = some (.ok .halt, after) ∧
          n = after.memory.get 0) ∧
      ∀ fault, Gives m noun verb (.error fault) ↔
        ∃ steps after, (patch m noun verb).run steps = some (.error fault, after) ∨
          fault = .suspended ∧ ∃ stop, stop ≠ .halt ∧
            (patch m noun verb).run steps = some (.ok stop, after)) ∧
    Fault.suspended.kind = .puzzleInput ∧ Fault.unwritable.kind = .value ∧
    ∀ (s : Store) (r : MachineRef), s.Holds r → s.machine r = m →
      (∀ result, Finds m target result ↔ ∃ steps s', Session steps r target s pairs result s') ∧
      ∀ steps result s', Session steps r target s pairs result s' →
        ∀ q, s.Holds q → s'.Holds q ∧ s'.machine q = s.machine q := by
  have hreported : (Fault.noNounVerb target).reported =
      if (Nat.digits 10 target.natAbs).length ≤ 4300 then .noNounVerb target else .unwritable := by
    rw [reported_noNounVerb]
    simp only [Numeral.fits_iff, Numeral.maxDigits]
  obtain ⟨result, hfinds⟩ := exists_finds hends
  refine ⟨⟨result, hfinds, fun other hother => finds_unique hother hfinds⟩, fun p => finds_ok_iff,
    fun fault => hreported ▸ finds_error_iff fault, ?_, fun noun verb => ?_, rfl, rfl,
    fun s r hr hm => ⟨fun result => finds_iff_session hr hm, fun steps result s' h => h.keeps⟩⟩
  · simp only [finds_error_iff, hreported]
    refine ⟨?_, ?_⟩
    · rintro ⟨fault, ⟨p, -, hgives⟩ | ⟨hall, rfl⟩, hkind⟩
      · exact absurd hkind hgives.kind_ne
      · refine ⟨hall, ?_⟩
        by_contra hlong
        rw [if_neg hlong] at hkind
        cases hkind
    · rintro ⟨hall, hshort⟩
      refine ⟨.noNounVerb target, Or.inr ⟨hall, ?_⟩, rfl⟩
      exact (if_pos hshort).symm
  · exact ⟨patched_patch m noun verb, fun _ => rfl, gives_ok_iff m noun verb,
      gives_error_iff m noun verb⟩

/-- A machine that adds up what it finds at the noun and at the verb. -/
def adder : Machine := { memory := .ofValues [1, 0, 0, 0, 99] }

/-- The first candidate of the adder gives its own first word twice, and the second gives one. -/
theorem second_candidate_gives_one :
    let s := (Store.empty.addMachine adder).2
    (∀ p, Tried adder 1 p → ∃ result, Gives adder p.1 p.2 result) ∧ Misses adder 1 (0, 0) ∧
      Finds adder 1 (.ok (0, 1)) ∧ ∃ steps s', Session steps ⟨0⟩ 1 s pairs (.ok (0, 1)) s' ∧
        s'.Holds ⟨0⟩ ∧ s'.machine ⟨0⟩ = adder := by
  intro s
  have hzero : Gives adder 0 0 (.ok 2) :=
    (gives_ok_iff adder 0 0 2).mpr ⟨2, _, rfl, by decide +kernel⟩
  have hone : Gives adder 0 1 (.ok 1) :=
    (gives_ok_iff adder 0 1 1).mpr ⟨2, _, rfl, by decide +kernel⟩
  have hmisses : Misses adder 1 (0, 0) := ⟨2, by decide, hzero⟩
  have hends : ∀ p, Tried adder 1 p → ∃ result, Gives adder p.1 p.2 result := by
    rintro ⟨noun, verb⟩ ⟨-, hbefore⟩
    by_cases hfirst : noun = 0 ∧ verb ≤ 1
    · obtain ⟨rfl, hverb⟩ := hfirst
      interval_cases verb
      · exact ⟨_, hzero⟩
      · exact ⟨_, hone⟩
    · obtain ⟨n, hn, hgives⟩ := hbefore (0, 1) ⟨by decide, by decide⟩ (by unfold Before; omega)
      cases (result_lasting adder 0 1).unique hone hgives
      exact absurd rfl hn
  have htried : Tried adder 1 (0, 1) := by
    refine ⟨⟨by decide, by decide⟩, ?_⟩
    rintro ⟨noun, verb⟩ - hbefore
    obtain ⟨rfl, rfl⟩ : noun = 0 ∧ verb = 0 := by
      unfold Before at hbefore
      omega
    exact hmisses
  obtain ⟨-, hfinds, -, -, -, -, -, hstore⟩ := first_deciding_candidate_decides adder 1 hends
  have hfound := (hfinds (0, 1)).mpr ⟨htried, hone⟩
  have hholds : s.Holds ⟨0⟩ := Store.holds_addMachine Store.empty adder
  obtain ⟨hsession, hkept⟩ := hstore s ⟨0⟩ hholds rfl
  obtain ⟨steps, s', h⟩ := (hsession _).mp hfound
  exact ⟨hends, hmisses, hfound, steps, s', h, hkept steps _ s' h ⟨0⟩ hholds⟩

end Puzzle.GravityAssist

end Advent
