/-
A machine is driven once.

A machine may be started once, by a run or by a step that stops, and every pause of it
may be answered once.  The right to drive it on is therefore like a token: it lies with
the machine while it is startable, then with its latest pause, and with nothing after a
halt or a fault.  `Granted` says which calls hold it.

`Turn` is what a call does to the token, whether the call is granted, refused or only
writes a cell, and `Drives.turn` says that every call is one.  `Token` is the invariant.
It ties the flag of the machine and the marks on its pauses to the calls that were made,
and a turn preserves it.
-/
import Advent.Proofs.Intcode.Calls
import Advent.Proofs.Intcode.Drive

namespace Advent.Intcode

/-- The call answers this stop. -/
def Call.Answers (c : Call) (q : StopRef) : Prop := ∃ value, c = .resume q value

/-- A call with this outcome starts its machine: it runs it, or steps it to a stop. -/
def Starts : Call × Except Fault Reply → Prop
  | (.run _, _) => True
  | (.step _, .ok (.stopped _)) => True
  | _ => False

namespace Store

/-! ### Pauses -/

/-- A stop of the machine that wants to be answered, and whether it was. -/
structure Pause (s : Store) (r : MachineRef) (answered : Bool) (q : StopRef) : Prop where
  held : q.index < s.stops.size
  machine : (s.stopped q).machine = r
  stop : (s.stopped q).stop ≠ .halt
  answered : (s.stopped q).answered = answered

/-- A stop of the machine that wants to be answered and has not been. -/
def Live (s : Store) (r : MachineRef) (q : StopRef) : Prop := s.Pause r false q

theorem Pause.congr {s s' : Store} {r : MachineRef} {answered : Bool} {q : StopRef}
    (h : s.Pause r answered q) (hstops : s'.stops = s.stops) : s'.Pause r answered q := by
  have hq : s'.stopped q = s.stopped q := by
    unfold stopped
    rw [hstops]
  exact ⟨hstops ▸ h.held, hq ▸ h.machine, hq ▸ h.stop, hq ▸ h.answered⟩

theorem pause_addStop (s : Store) (r : MachineRef) (stop : Stop) (answered : Bool) (q : StopRef) :
    (s.addStop r stop).2.Pause r answered q ↔
      s.Pause r answered q ∨ q.index = s.stops.size ∧ stop ≠ .halt ∧ answered = false := by
  have hlookup := stopped_addStop s r stop q
  have hsize : (s.addStop r stop).2.stops.size = s.stops.size + 1 := Array.size_push _
  by_cases hnew : q.index = s.stops.size
  · rw [if_pos hnew] at hlookup
    refine ⟨?_, ?_⟩
    · intro hp
      obtain ⟨-, -, hstop, hanswered⟩ := hp
      rw [hlookup] at hstop hanswered
      exact Or.inr ⟨hnew, hstop, hanswered.symm⟩
    · intro hp
      rcases hp with ⟨hheld, -, -, -⟩ | ⟨-, hstop, rfl⟩
      · omega
      · exact ⟨by omega, by rw [hlookup], by rw [hlookup]; exact hstop, by rw [hlookup]⟩
  · rw [if_neg hnew] at hlookup
    refine ⟨?_, ?_⟩
    · intro hp
      obtain ⟨hheld, hmachine, hstop, hanswered⟩ := hp
      rw [hlookup] at hmachine hstop hanswered
      exact Or.inl ⟨by omega, hmachine, hstop, hanswered⟩
    · intro hp
      rcases hp with ⟨hheld, hmachine, hstop, hanswered⟩ | ⟨hnew', -⟩
      · rw [← hlookup] at hmachine hstop hanswered
        exact ⟨by omega, hmachine, hstop, hanswered⟩
      · exact absurd hnew' hnew

theorem pause_markAnswered {s : Store} {r : MachineRef} {answered : Bool} {q : StopRef}
    (h : s.Pause r answered q) (answered' : Bool) (p : StopRef) :
    (s.markAnswered q).Pause r answered' p ↔
      p = q ∧ answered' = true ∨ p ≠ q ∧ s.Pause r answered' p := by
  have hsize := stops_size_markAnswered s q
  by_cases hpq : p = q
  · subst hpq
    have hlookup := stopped_markAnswered_self h.held
    refine ⟨?_, ?_⟩
    · intro hp
      obtain ⟨-, -, -, hanswered⟩ := hp
      rw [hlookup] at hanswered
      exact Or.inl ⟨rfl, hanswered.symm⟩
    · intro hp
      rcases hp with ⟨-, rfl⟩ | ⟨hne, -⟩
      · exact ⟨hsize ▸ h.held, by rw [hlookup]; exact h.machine, by rw [hlookup]; exact h.stop,
          by rw [hlookup]⟩
      · exact absurd rfl hne
  · have hlookup := stopped_markAnswered_ne s hpq
    refine ⟨?_, ?_⟩
    · intro hp
      obtain ⟨hheld, hmachine, hstop, hanswered⟩ := hp
      rw [hlookup] at hmachine hstop hanswered
      exact Or.inr ⟨hpq, hsize ▸ hheld, hmachine, hstop, hanswered⟩
    · intro hp
      rcases hp with ⟨rfl, -⟩ | ⟨-, hheld, hmachine, hstop, hanswered⟩
      · exact absurd rfl hpq
      · rw [← hlookup] at hmachine hstop hanswered
        exact ⟨hsize ▸ hheld, hmachine, hstop, hanswered⟩

/-! ### The state in which a call leaves a machine -/

/-- What is there when a call has brought the machine into the state `m`. -/
structure Settled (s : Store) (r : MachineRef) (result : Except Fault (Option Stop)) (m : Machine)
    (outcome : Except Fault Reply) (s' : Store) : Prop where
  holds : s'.Holds r
  machine : s'.machine r = m
  pause : ∀ answered p, s'.Pause r answered p →
    s.Pause r answered p ∨ answered = false ∧ outcome = .ok (.stopped p)
  kept : ∀ answered p, s.Pause r answered p → s'.Pause r answered p
  fault : ∀ fault, outcome = .error fault → result = .error fault
  stopped : (∃ q, outcome = .ok (.stopped q)) ↔ ∃ stop, result = .ok (some stop)

theorem settle_settled {s : Store} {r : MachineRef} (h : s.Holds r)
    (result : Except Fault (Option Stop)) (m : Machine) :
    Settled s r result m (s.settle r (result, m)).1 (s.settle r (result, m)).2 := by
  rcases result with fault | _ | stop
  · refine ⟨h.setMachine r m, machine_setMachine h m, fun _ p hp => Or.inl (hp.congr rfl),
      fun _ p hp => hp.congr rfl, fun _ hf => ?_, by simp [settle]⟩
    cases hf
    rfl
  · refine ⟨h.setMachine r m, machine_setMachine h m, fun _ p hp => Or.inl (hp.congr rfl),
      fun _ p hp => hp.congr rfl, fun _ hf => ?_, by simp [settle]⟩
    cases hf
  · -- a stop is added, behind those that there were
    have hpause := pause_addStop (s.setMachine r m) r stop
    refine ⟨?_, ?_, fun answered p hp => ?_, fun answered p hp => ?_, fun _ hf => ?_, ?_⟩
    · exact ⟨(h.setMachine r m).frame, (h.setMachine r m).memory⟩
    · exact machine_setMachine h m
    · rcases (hpause answered p).mp hp with hold | ⟨hnew, -, hanswered⟩
      · exact Or.inl (hold.congr rfl)
      · refine Or.inr ⟨hanswered, ?_⟩
        cases p
        cases hnew
        rfl
    · exact (hpause answered p).mpr (Or.inl (hp.congr rfl))
    · cases hf
    · exact ⟨fun _ => ⟨stop, rfl⟩, fun _ => ⟨_, rfl⟩⟩

/-! ### The calls

Some calls drive a machine, and some only write into it.  Those that drive it are guarded, and the
guards know nothing of one another: one looks at the machine, the other at the stop.  That they come
to one right is what has to be shown.
-/

/-- The calls that drive a machine, and those that write into its memory. -/
inductive Drives (s : Store) (r : MachineRef) : Call → Prop where
  | step : Drives s r (.step r)
  | run : Drives s r (.run r)
  | put (a value : Int) : Drives s r (.put r a value)
  | resume {answered : Bool} {q : StopRef} (value : Int) (hpause : s.Pause r answered q) :
      Drives s r (.resume q value)

/-- The calls that may carry out instructions of the machine. -/
def Granted (s : Store) (r : MachineRef) : Call → Prop
  | .step _ | .run _ => (s.machine r).started = false
  | .resume q _ => s.Live r q
  | _ => False

/-- The call is refused, without an instruction and without any change. -/
def Refuses (s : Store) (c : Call) : Prop :=
  ∃ fault, fault.kind = .consumed ∧ ∀ steps, s.perform steps c = some (.error fault, s)

/-- The call changes the memory of the machine at most. -/
def OnlyWrites (s : Store) (r : MachineRef) (c : Call) : Prop :=
  ∀ steps outcome s', s.perform steps c = some (outcome, s') →
    s'.Holds r ∧ s'.stops = s.stops ∧ (∀ q, outcome ≠ .ok (.stopped q)) ∧
      s'.machine r = { s.machine r with memory := (s'.machine r).memory }

theorem refuses_step {s : Store} {r : MachineRef} (h : (s.machine r).started = true) :
    s.Refuses (.step r) := by
  refine ⟨.alreadyStopped, rfl, fun steps => ?_⟩
  simp only [perform, Machine.step, h, if_true]
  exact congrArg (fun s' => some (Fault.raise .alreadyStopped, s')) (setMachine_self s r)

theorem refuses_run {s : Store} {r : MachineRef} (h : (s.machine r).started = true) :
    s.Refuses (.run r) := by
  refine ⟨.alreadyRun, rfl, fun steps => ?_⟩
  simp only [perform, Machine.run, h, if_true]
  exact congrArg (fun s' => some (Fault.raise .alreadyRun, s')) (setMachine_self s r)

theorem refuses_resume {s : Store} {r : MachineRef} {q : StopRef} (h : s.Pause r true q)
    (value : Int) : s.Refuses (.resume q value) := by
  have hstop := h.stop
  have hanswered := h.answered
  cases hq : (s.stopped q).stop with
  | input destination =>
      exact ⟨.alreadyResumed .input, rfl, fun steps => by simp only [perform, hq, hanswered]; rfl⟩
  | output value =>
      exact ⟨.alreadyResumed .output, rfl, fun steps => by simp only [perform, hq, hanswered]; rfl⟩
  | halt => exact absurd hq hstop

theorem onlyWrites_put {s : Store} {r : MachineRef} (h : s.Holds r) (a value : Int) :
    s.OnlyWrites r (.put r a value) := by
  intro steps outcome s' hp
  rw [perform] at hp
  cases hput : (s.machine r).put a value with
  | error fault =>
      simp only [hput] at hp
      cases hp
      exact ⟨h, rfl, by simp, rfl⟩
  | ok m =>
      simp only [hput] at hp
      cases hp
      refine ⟨h.setMachine r m, rfl, by simp, ?_⟩
      rw [machine_setMachine h]
      unfold Machine.put at hput
      cases haddress : address a with
      | error fault => simp [haddress, bind, Except.bind] at hput
      | ok b =>
          simp only [haddress, bind, Except.bind, pure, Except.pure] at hput
          cases hput
          rfl

/-- A call that does not hold the token is refused, unless it writes. -/
theorem Drives.refused {s : Store} {r : MachineRef} {c : Call} (hc : s.Drives r c)
    (hg : ¬ s.Granted r c) : s.Refuses c ∨ ∃ a value, c = .put r a value := by
  cases hc with
  | step => exact Or.inl (refuses_step (by simpa [Granted] using hg))
  | run => exact Or.inl (refuses_run (by simpa [Granted] using hg))
  | put a value => exact Or.inr ⟨a, value, rfl⟩
  | @resume answered q value hpause =>
      cases answered with
      | false => exact absurd hpause hg
      | true => exact Or.inl (refuses_resume hpause value)

/-! ### What a call does to the token -/

/-- What a call does to the right to drive the machine. -/
structure Turn (s : Store) (r : MachineRef) (c : Call) (outcome : Except Fault Reply)
    (s' : Store) : Prop where
  holds : s'.Holds r
  started : (s'.machine r).started = true ↔ (s.machine r).started = true ∨ Starts (c, outcome)
  live : ∀ p, s'.Live r p →
    s.Live r p ∧ ¬ c.Answers p ∨ outcome = .ok (.stopped p) ∧ s.Granted r c
  answered : ∀ p, s'.Pause r true p ↔ s.Pause r true p ∨ c.Answers p
  fault : s.Granted r c → ∀ fault, outcome = .error fault → fault.kind ∈ Machine.faultKinds

/-- A step starts its machine when it stops, and fails only as an instruction fails. -/
theorem step_started {m m' : Machine} {result : Except Fault (Option Stop)}
    (hfresh : m.started = false) (h : m.step = (result, m')) :
    (m'.started = true ↔ ∃ stop, result = .ok (some stop)) ∧
      ∀ fault, result = .error fault → fault.kind ∈ Machine.faultKinds := by
  have hstarted := Machine.exec_started m
  simp only [Machine.step, hfresh, Bool.false_eq_true, if_false] at h
  rcases hexec : m.exec with ⟨fault | _ | stop, m''⟩ <;> rw [hexec] at h hstarted
  · cases h
    have hidle : m'.started = false := hstarted.trans hfresh
    refine ⟨by simp [hidle], fun fault' hf => ?_⟩
    cases hf
    exact Machine.exec_fault_kind hexec
  · cases h
    have hidle : m'.started = false := hstarted.trans hfresh
    exact ⟨by simp [hidle], fun fault' hf => by cases hf⟩
  · cases h
    exact ⟨⟨fun _ => ⟨stop, rfl⟩, fun _ => rfl⟩, fun fault' hf => by cases hf⟩

/-- A granted run drives the machine and settles it where that leads. -/
theorem perform_run {s : Store} {r : MachineRef} (hfresh : (s.machine r).started = false)
    (steps : Nat) :
    s.perform steps (.run r) =
      (Machine.drive steps { s.machine r with started := true }).map fun x =>
        s.settle r (x.1.map some, x.2) := by
  simp only [perform, Machine.run, hfresh, Bool.false_eq_true, if_false]
  cases Machine.drive steps { s.machine r with started := true } <;> rfl

theorem Live.refusal {s : Store} {r : MachineRef} {q : StopRef} (h : s.Live r q) :
    (s.stopped q).refusal = none := by
  have hstop := h.stop
  rw [Stopped.refusal, h.answered]
  cases hq : (s.stopped q).stop with
  | halt => exact absurd hq hstop
  | input destination | output value => rfl

/-- A granted answer is marked, and then drives the machine on. -/
theorem perform_resume {s : Store} {r : MachineRef} {q : StopRef} (hlive : s.Live r q)
    (value : Int) (steps : Nat) :
    s.perform steps (.resume q value) =
      (((s.machine r).answer (s.stopped q).stop value).drive steps).map fun x =>
        (s.markAnswered q).settle r (x.1.map some, x.2) := by
  rw [perform_resume_eq, hlive.refusal, hlive.machine]

theorem of_perform_run {s s' : Store} {r : MachineRef} {steps : Nat} {outcome : Except Fault Reply}
    (hfresh : (s.machine r).started = false) (h : s.perform steps (.run r) = some (outcome, s')) :
    ∃ result m, { s.machine r with started := true }.drive steps = some (result, m) ∧
      s.settle r (result.map some, m) = (outcome, s') := by
  rw [perform_run hfresh] at h
  obtain ⟨⟨result, m⟩, hdrive, hsettle⟩ := Option.map_eq_some_iff.mp h
  exact ⟨result, m, hdrive, hsettle⟩

theorem of_perform_resume {s s' : Store} {r : MachineRef} {q : StopRef} {value : Int} {steps : Nat}
    {outcome : Except Fault Reply} (hlive : s.Live r q)
    (h : s.perform steps (.resume q value) = some (outcome, s')) :
    ∃ result m, ((s.machine r).answer (s.stopped q).stop value).drive steps = some (result, m) ∧
      (s.markAnswered q).settle r (result.map some, m) = (outcome, s') := by
  rw [perform_resume hlive] at h
  obtain ⟨⟨result, m⟩, hdrive, hsettle⟩ := Option.map_eq_some_iff.mp h
  exact ⟨result, m, hdrive, hsettle⟩

/-- The stops that were answered are marked, and then the machine is settled. -/
theorem Settled.turn {s s₁ s' : Store} {r : MachineRef} {c : Call} {m : Machine}
    {result : Except Fault (Option Stop)} {outcome : Except Fault Reply}
    (h : Settled s₁ r result m outcome s') (hg : s.Granted r c)
    (hmarked : ∀ answered p, s₁.Pause r answered p ↔
      c.Answers p ∧ answered = true ∨ ¬ c.Answers p ∧ s.Pause r answered p)
    (hanswered : ∀ p, c.Answers p → s.Live r p)
    (hstarted : m.started = true ↔ (s.machine r).started = true ∨ Starts (c, outcome))
    (hfault : ∀ fault, result = .error fault → fault.kind ∈ Machine.faultKinds) :
    s.Turn r c outcome s' := by
  refine ⟨h.holds, by rw [h.machine]; exact hstarted, fun p hp => ?_, fun p => ⟨fun hp => ?_, ?_⟩,
    fun _ fault hf => hfault fault (h.fault fault hf)⟩
  · rcases h.pause _ _ hp with hold | ⟨-, hnew⟩
    · rcases (hmarked _ _).mp hold with ⟨-, hfalse⟩ | ⟨hother, hlive⟩
      · cases hfalse
      · exact Or.inl ⟨hlive, hother⟩
    · exact Or.inr ⟨hnew, hg⟩
  · rcases h.pause _ _ hp with hold | ⟨hfalse, -⟩
    · rcases (hmarked _ _).mp hold with ⟨hthis, -⟩ | ⟨-, hbefore⟩
      · exact Or.inr hthis
      · exact Or.inl hbefore
    · cases hfalse
  · intro hp
    rcases hp with hbefore | hthis
    · refine h.kept _ _ ((hmarked _ _).mpr (Or.inr ⟨fun hthis => ?_, hbefore⟩))
      have := (hanswered p hthis).answered
      rw [hbefore.answered] at this
      cases this
    · exact h.kept _ _ ((hmarked _ _).mpr (Or.inl ⟨hthis, rfl⟩))

/-- A call that holds the token takes it, and hands it on with the stop it ends in. -/
theorem Drives.granted {s s' : Store} {r : MachineRef} {c : Call} {steps : Nat}
    {outcome : Except Fault Reply} (hc : s.Drives r c) (h : s.Holds r) (hg : s.Granted r c)
    (hp : s.perform steps c = some (outcome, s')) : s.Turn r c outcome s' := by
  cases hc with
  | put a value => cases hg
  | step =>
      have hidle : (s.machine r).started = false := hg
      rcases hstep : (s.machine r).step with ⟨result, m⟩
      have hsettled : Settled s r result m outcome s' := by
        have := settle_settled h result m
        simp only [perform, hstep] at hp
        rwa [Option.some.inj hp] at this
      -- a step starts the machine only if it stops, not if it goes on or fails
      obtain ⟨hstarted, hfault⟩ := step_started hidle hstep
      have hstarts : Starts (.step r, outcome) ↔ ∃ q, outcome = .ok (.stopped q) := by
        rcases outcome with fault | reply
        · simp [Starts]
        · cases reply <;> simp [Starts]
      refine hsettled.turn hg (by simp [Call.Answers]) (by simp [Call.Answers]) ?_ hfault
      rw [hstarted, hstarts, hsettled.stopped, hidle]
      simp
  | run =>
      obtain ⟨result, m, hdrive, hsettle⟩ := of_perform_run hg hp
      have hsettled : Settled s r (result.map some) m outcome s' := by
        have := settle_settled h (result.map some) m
        rwa [hsettle] at this
      refine hsettled.turn hg (by simp [Call.Answers]) (by simp [Call.Answers]) ?_ fun fault hf => ?_
      · rw [Machine.drive_started hdrive]
        simp [Starts]
      · rw [Machine.map_fault hf] at hdrive
        exact Machine.drive_fault_kind hdrive
  | @resume answered q value hpause =>
      have hlive : s.Live r q := hg
      obtain ⟨result, m, hdrive, hsettle⟩ := of_perform_resume hlive hp
      have hsettled : Settled (s.markAnswered q) r (result.map some) m outcome s' := by
        have := settle_settled (s := s.markAnswered q) ⟨h.frame, h.memory⟩ (result.map some) m
        rwa [hsettle] at this
      have hanswers : ∀ p, (Call.resume q value).Answers p ↔ p = q := by
        intro p
        simp [Call.Answers, eq_comm]
      refine hsettled.turn hg (fun b p => ?_) (fun p hp' => ?_) ?_ fun fault hf => ?_
      · rw [pause_markAnswered hlive, hanswers]
      · rw [(hanswers p).mp hp']
        exact hlive
      · rw [Machine.drive_started hdrive]
        cases (s.stopped q).stop <;> simp [Machine.answer, Starts]
      · rw [Machine.map_fault hf] at hdrive
        exact Machine.drive_fault_kind hdrive

/-- A call that only writes, or none at all, leaves the token where it is. -/
theorem Drives.idle {s s' : Store} {r : MachineRef} {c : Call} {steps : Nat}
    {outcome : Except Fault Reply} (hc : s.Drives r c) (h : s.Holds r) (hg : ¬ s.Granted r c)
    (hp : s.perform steps c = some (outcome, s')) : s.Turn r c outcome s' := by
  -- nothing that the token is about changes: not the flag, not the stops, not their marks
  have hidles : s'.Holds r ∧ s'.stops = s.stops ∧ (s'.machine r).started = (s.machine r).started ∧
      ∀ q, outcome ≠ .ok (.stopped q) := by
    rcases hc.refused hg with ⟨fault, -, hrefused⟩ | ⟨a, value, rfl⟩
    · rw [hrefused steps] at hp
      cases hp
      exact ⟨h, rfl, rfl, by simp⟩
    · obtain ⟨hholds, hstops, houtcome, hmachine⟩ := onlyWrites_put h a value steps outcome s' hp
      exact ⟨hholds, hstops, by rw [hmachine], houtcome⟩
  obtain ⟨hholds, hstops, hstarted, houtcome⟩ := hidles
  refine ⟨hholds, ?_, fun p hlive => ?_, fun p => ⟨?_, ?_⟩, fun hg' => absurd hg' hg⟩
  · rw [hstarted, iff_self_or]
    intro hstarts
    cases hc with
    | step =>
        rcases outcome with fault | reply
        · cases hstarts
        · cases reply with
          | stopped q => exact absurd rfl (houtcome q)
          | _ => cases hstarts
    | run => simpa [Granted] using hg
    | put a value => cases hstarts
    | resume value hpause => cases hstarts
  · have hbefore : s.Live r p := hlive.congr hstops.symm
    refine Or.inl ⟨hbefore, ?_⟩
    intro hanswers
    obtain ⟨value, rfl⟩ := hanswers
    exact hg hbefore
  · exact fun hp' => Or.inl (hp'.congr hstops.symm)
  · intro hp
    rcases hp with hbefore | ⟨value, rfl⟩
    · exact hbefore.congr hstops
    · -- an answer that does not hold the token finds its pause marked already
      cases hc with
      | @resume answered _ _ hpause =>
          cases answered with
          | false => exact absurd hpause hg
          | true => exact hpause.congr hstops

/-- **Every call is a turn.** -/
theorem Drives.turn {s s' : Store} {r : MachineRef} {c : Call} {steps : Nat}
    {outcome : Except Fault Reply} (hc : s.Drives r c) (h : s.Holds r)
    (hp : s.perform steps c = some (outcome, s')) : s.Turn r c outcome s' := by
  by_cases hg : s.Granted r c
  · exact hc.granted h hg hp
  · exact hc.idle h hg hp

/-! ### Any number of calls

The token is followed from call to call, by induction on the life of the machine.
-/

/-- The machine is in the store, was not started and has never paused. -/
structure Fresh (s : Store) (r : MachineRef) : Prop extends s.Holds r where
  startable : (s.machine r).started = false
  unused : ∀ answered q, ¬ s.Pause r answered q

/-- Calls one after another, the latest first, each with what came of it. -/
inductive Life (s₀ : Store) (r : MachineRef) : List (Call × Except Fault Reply) → Store → Prop where
  | made : Life s₀ r [] s₀
  | call {past : List (Call × Except Fault Reply)} {s s' : Store} {c : Call}
      {outcome : Except Fault Reply} (steps : Nat) (hpast : Life s₀ r past s) (hc : s.Drives r c)
      (hp : s.perform steps c = some (outcome, s')) : Life s₀ r ((c, outcome) :: past) s'

/-- The token after these calls. -/
structure Token (s : Store) (r : MachineRef) (past : List (Call × Except Fault Reply)) : Prop where
  holds : s.Holds r
  started : (s.machine r).started = true ↔ ∃ e ∈ past, Starts e
  idle : (s.machine r).started = false → ∀ q, ¬ s.Live r q
  unique : ∀ p q, s.Live r p → s.Live r q → p = q
  answered : ∀ q, s.Pause r true q ↔ ∃ e ∈ past, e.1.Answers q

theorem Fresh.token {s : Store} {r : MachineRef} (h : s.Fresh r) : s.Token r [] :=
  ⟨h.toHolds, by simp [h.startable], fun _ q => h.unused false q,
    fun p _ hp _ => absurd hp (h.unused false p), fun q => by simp [h.unused true q]⟩

/-- No other pause is live beside a call that holds the token. -/
theorem Token.not_live {s : Store} {r : MachineRef} {past : List (Call × Except Fault Reply)}
    (h : s.Token r past) {c : Call} (hg : s.Granted r c) {p : StopRef} (hlive : s.Live r p) :
    c.Answers p := by
  cases c with
  | step _ | run _ => exact absurd hlive (h.idle hg p)
  | resume q value => exact ⟨value, by rw [h.unique p q hlive hg]⟩
  | _ => cases hg

/-- A pause that is live after a call was so before it, or is the stop of the call. -/
theorem Token.live_cases {s s' : Store} {r : MachineRef}
    {past : List (Call × Except Fault Reply)} {c : Call} {outcome : Except Fault Reply}
    (h : s.Token r past) (ht : s.Turn r c outcome s') {p : StopRef} (hp : s'.Live r p) :
    s.Live r p ∧ ¬ s.Granted r c ∨ outcome = .ok (.stopped p) ∧ s.Granted r c := by
  rcases ht.live p hp with ⟨hlive, hother⟩ | hnew
  · exact Or.inl ⟨hlive, fun hg => hother (h.not_live hg hlive)⟩
  · exact Or.inr hnew

/-- **A call preserves the token.** -/
theorem Token.turn {s s' : Store} {r : MachineRef} {past : List (Call × Except Fault Reply)}
    {c : Call} {outcome : Except Fault Reply} (h : s.Token r past) (ht : s.Turn r c outcome s') :
    s'.Token r ((c, outcome) :: past) := by
  have hcase : ∀ p, s'.Live r p → s.Live r p ∧ ¬ s.Granted r c ∨
      outcome = .ok (.stopped p) ∧ s.Granted r c := fun p hp => h.live_cases ht hp
  refine ⟨ht.holds, ?_, fun hidle p hp => ?_, fun p q hp hq => ?_, fun q => ?_⟩
  · rw [ht.started, h.started]
    simp [or_comm]
  · -- a machine that is still startable was so before, and the call did not stop
    have hbefore : ¬ ((s.machine r).started = true ∨ Starts (c, outcome)) := by
      rw [← ht.started, hidle]
      simp
    have hstartable : (s.machine r).started = false := by
      simpa using fun hs => hbefore (Or.inl hs)
    rcases hcase p hp with ⟨hp', -⟩ | ⟨rfl, hg⟩
    · exact h.idle hstartable p hp'
    · cases c with
      | step _ | run _ => exact hbefore (Or.inr trivial)
      | resume q value => exact h.idle hstartable q hg
      | _ => cases hg
  · rcases hcase p hp with ⟨hp', hg⟩ | ⟨hp', hg⟩ <;> rcases hcase q hq with ⟨hq', hg'⟩ | ⟨hq', hg'⟩
    · exact h.unique p q hp' hq'
    · exact absurd hg' hg
    · exact absurd hg hg'
    · rw [hp'] at hq'
      cases hq'
      rfl
  · rw [ht.answered, h.answered]
    simp [or_comm]

theorem Life.token {s₀ s : Store} {r : MachineRef} {past : List (Call × Except Fault Reply)}
    (hfresh : s₀.Fresh r) (h : s₀.Life r past s) : s.Token r past := by
  induction h with
  | made => exact hfresh.token
  | call steps _ hc hp ih => exact ih.turn (hc.turn ih.holds hp)

/-! ### The end of a life

After a halt or a fault nothing holds the token.  It does not come back, since a call that does not
hold it cannot hand it on.
-/

/-- The outcome ends the life of the machine: a halt, or a fault of a run or of an answer
that was not merely refused. -/
def Final (s : Store) : Call → Except Fault Reply → Prop
  | _, .ok (.stopped q) => (s.stopped q).stop = .halt
  | .run _, .error fault | .resume _ _, .error fault => fault.kind ≠ .consumed
  | _, _ => False

/-- Nothing holds the token. -/
structure Spent (s : Store) (r : MachineRef) : Prop where
  holds : s.Holds r
  started : (s.machine r).started = true
  dead : ∀ q, ¬ s.Live r q

theorem Spent.not_granted {s : Store} {r : MachineRef} (h : s.Spent r) (c : Call) :
    ¬ s.Granted r c := by
  cases c with
  | step _ | run _ => simp [Granted, h.started]
  | resume q value => exact h.dead q
  | _ => exact id

theorem Spent.turn {s s' : Store} {r : MachineRef} {c : Call} {outcome : Except Fault Reply}
    (h : s.Spent r) (ht : s.Turn r c outcome s') : s'.Spent r := by
  refine ⟨ht.holds, ht.started.mpr (Or.inl h.started), fun q hq => ?_⟩
  rcases ht.live q hq with ⟨hlive, -⟩ | ⟨-, hg⟩
  · exact h.dead q hlive
  · exact h.not_granted c hg

/-- Only a call that holds the token can end a life. -/
theorem Drives.granted_of_final {s s' : Store} {r : MachineRef} {c : Call} {steps : Nat}
    {outcome : Except Fault Reply} (hc : s.Drives r c) (h : s.Holds r)
    (hp : s.perform steps c = some (outcome, s')) (hfinal : s'.Final c outcome) :
    s.Granted r c := by
  refine Classical.byContradiction fun hg => ?_
  rcases hc.refused hg with ⟨fault, hkind, hrefused⟩ | ⟨a, value, rfl⟩
  · rw [hrefused steps] at hp
    cases hp
    cases hc with
    | run | resume _ _ => exact hfinal hkind
    | step | put a value => exact hfinal
  · have hnone := (onlyWrites_put h a value steps outcome s' hp).2.2.1
    rcases outcome with fault | reply
    · exact hfinal
    · cases reply with
      | stopped q => exact hnone q rfl
      | _ => exact hfinal

theorem Token.spent {s s' : Store} {r : MachineRef} {past : List (Call × Except Fault Reply)}
    {c : Call} {outcome : Except Fault Reply} {steps : Nat} (h : s.Token r past)
    (hc : s.Drives r c) (hp : s.perform steps c = some (outcome, s'))
    (hfinal : s'.Final c outcome) : s'.Spent r := by
  have ht := hc.turn h.holds hp
  have hg := hc.granted_of_final h.holds hp hfinal
  refine ⟨ht.holds, ht.started.mpr ?_, fun q hq => ?_⟩
  · cases hc with
    | put a value => cases hg
    | run => exact Or.inr trivial
    | step =>
        rcases outcome with fault | reply
        · cases hfinal
        · cases reply with
          | stopped q => exact Or.inr trivial
          | _ => cases hfinal
    | @resume answered q value hpause =>
        cases hstarted : (s.machine r).started with
        | false => exact absurd hg (h.idle hstarted q)
        | true => exact Or.inl rfl
  · rcases h.live_cases ht hq with ⟨-, hg'⟩ | ⟨rfl, -⟩
    · exact hg' hg
    · exact hq.stop hfinal

/-- **A spent machine stays as it is**, but for what is written into its memory. -/
theorem Spent.life {s t : Store} {r : MachineRef} {later : List (Call × Except Fault Reply)}
    (h : s.Spent r) (hlife : s.Life r later t) :
    t.Spent r ∧ t.machine r = { s.machine r with memory := (t.machine r).memory } := by
  induction hlife with
  | made => exact ⟨h, rfl⟩
  | @call past t t' c outcome steps _ hc hp ih =>
      obtain ⟨hspent, hmachine⟩ := ih
      refine ⟨hspent.turn (hc.turn hspent.holds hp), ?_⟩
      rcases hc.refused (hspent.not_granted c) with ⟨fault, -, hrefused⟩ | ⟨a, value, rfl⟩
      · rw [hrefused steps] at hp
        cases hp
        exact hmachine
      · rw [(onlyWrites_put hspent.holds a value steps outcome t' hp).2.2.2, hmachine]

/--
**A machine is driven once.**  After any calls on a machine and its pauses, at most one
pause was not answered, and none while the machine was neither run nor stepped to a
stop.  Once it was, it is run and stepped no more, and no pause is answered twice: the
call is refused and changes nothing.  So only a startable machine and the one live pause
give a call the means to carry out instructions, and every other call is refused or only
writes.  A halt, and a fault of a run or an answer other than a refusal, end this for
good: whatever is called later, the machine stays where it is.  A call that was not
refused never fails with the fault of a refusal.
-/
theorem Life.driven_once {s₀ s : Store} {r : MachineRef}
    {past : List (Call × Except Fault Reply)} (hfresh : s₀.Fresh r) (h : s₀.Life r past s) :
    (∀ answered q, s.Pause r answered q → (answered = true ↔ ∃ e ∈ past, e.1.Answers q)) ∧
    (∀ p q, s.Live r p → s.Live r q → p = q) ∧
    ((¬ ∃ e ∈ past, Starts e) → (s.machine r).started = false ∧ ∀ q, ¬ s.Live r q) ∧
    ((∃ e ∈ past, Starts e) → s.Refuses (.step r) ∧ s.Refuses (.run r)) ∧
    (∀ q, (∃ e ∈ past, e.1.Answers q) → ∀ value, s.Refuses (.resume q value)) ∧
    (∀ c, s.Drives r c → ¬ s.Granted r c → s.Refuses c ∨ ∃ a value, c = .put r a value) ∧
    (∀ a value, s.OnlyWrites r (.put r a value)) ∧
    (∀ steps c fault s', s.Drives r c → s.Granted r c →
      s.perform steps c = some (.error fault, s') → fault.kind ≠ .consumed) ∧
    (∀ steps c outcome s', s.Drives r c → s.perform steps c = some (outcome, s') →
      s'.Final c outcome → ∀ later t, s'.Life r later t →
        (∀ c', ¬ t.Granted r c') ∧
          t.machine r = { s'.machine r with memory := (t.machine r).memory }) := by
  have htoken := h.token hfresh
  refine ⟨fun answered q hpause => ?_, htoken.unique, fun hnone => ?_, fun hsome => ?_,
    fun q hsome value => ?_, fun c hc => hc.refused, onlyWrites_put htoken.holds,
    fun steps c fault s' hc hg hp hkind => ?_, fun steps c outcome s' hc hp hfinal later t hlater => ?_⟩
  · rw [← htoken.answered]
    exact ⟨fun ha => ha ▸ hpause, fun ha => hpause.answered.symm.trans ha.answered⟩
  · have hstartable : (s.machine r).started = false := by
      simpa using fun hstarted => hnone (htoken.started.mp hstarted)
    exact ⟨hstartable, htoken.idle hstartable⟩
  · have hstarted := htoken.started.mpr hsome
    exact ⟨refuses_step hstarted, refuses_run hstarted⟩
  · exact refuses_resume ((htoken.answered q).mpr hsome) value
  · have hmem := (hc.turn htoken.holds hp).fault hg fault rfl
    rw [hkind] at hmem
    exact absurd hmem (by decide)
  · obtain ⟨hspent, hmachine⟩ := (htoken.spent hc hp hfinal).life hlater
    exact ⟨hspent.not_granted, hmachine⟩

/-- A machine that puts out two values. -/
def twice : Store := (empty.addMachine { memory := .ofValues [104, 7, 104, 8, 99] }).2

theorem twice_fresh : twice.Fresh ⟨0⟩ :=
  ⟨⟨by decide, by decide⟩, rfl, fun _ _ hpause => absurd hpause.held (Nat.not_lt_zero _)⟩

/-- The first pause is answered once. -/
theorem twice_answered_once :
    twice.Fresh ⟨0⟩ ∧
      ∃ s, twice.Life ⟨0⟩
          [(.resume ⟨0⟩ 0, .ok (.stopped ⟨1⟩)), (.run ⟨0⟩, .ok (.stopped ⟨0⟩))] s ∧
        ∀ value, s.Refuses (.resume ⟨0⟩ value) := by
  have hpause : ∃ s, twice.perform 1 (.run ⟨0⟩) = some (.ok (.stopped ⟨0⟩), s) ∧
      s.Pause ⟨0⟩ false ⟨0⟩ := ⟨_, rfl, by decide, rfl, by decide, rfl⟩
  obtain ⟨s, hrun, hpause⟩ := hpause
  have hresume : ∃ s', s.perform 1 (.resume ⟨0⟩ 0) = some (.ok (.stopped ⟨1⟩), s') := by
    cases hrun
    exact ⟨_, rfl⟩
  obtain ⟨s', hresume⟩ := hresume
  have hlife := Life.call 1 (.call 1 .made .run hrun) (.resume 0 hpause) hresume
  exact ⟨twice_fresh, s', hlife,
    (hlife.driven_once twice_fresh).2.2.2.2.1 _ ⟨_, List.mem_cons_self, 0, rfl⟩⟩

/-- A refused run ends nothing: the pause before it can still be answered. -/
theorem twice_refused_run :
    ∃ s s', twice.Life ⟨0⟩ [(.run ⟨0⟩, .error .alreadyRun), (.run ⟨0⟩, .ok (.stopped ⟨0⟩))] s ∧
      s.perform 1 (.resume ⟨0⟩ 0) = some (.ok (.stopped ⟨1⟩), s') ∧
      (s.machine ⟨0⟩).pc = 2 ∧ (s'.machine ⟨0⟩).pc = 4 :=
  ⟨_, _, .call 1 (.call 1 .made .run rfl) .run rfl, rfl, rfl, rfl⟩

end Store

end Advent.Intcode
