/-
Running is stepping on.

A machine may be run, or stepped until a step stops or fails.  The two are guarded apart:
a run marks the machine as started before it begins, and a step does so only when it stops.
What they carry out is the same: the instructions, one after another, up to the first that
stops or fails.  So a run comes to what the last of the steps comes to, and a machine that
was stepped for a while is run like one that was not.  To answer a pause is to write what it
is answered with and to go on in the same way, without a guard.

`ComesTo` says what a call comes to without references: what it yields, and the machine
after it.  `comesTo_iff` reduces it to the deed of the call.
-/
import Advent.Proofs.Intcode.Once

namespace Advent.Intcode

namespace Machine

/-! ### Instructions before a run

A run is the instructions up to the first that stops or fails.  Some of them may have been carried
out before, as long as none of them was that one.
-/

variable {m last : Machine} {n : Nat}

/-- A conversation begins with a drive, and sees nothing of the machine before that. -/
theorem converse_of_drive {m : Machine} {steps legs : Nat} {pending : List Int} {supplied : Nat}
    {past : List Event} {t : Transcript} (h : m.converse steps legs pending supplied past = some t) :
    ∃ x, m.drive steps = some x ∧ ∀ m' : Machine, m'.drive steps = some x →
      m'.converse steps legs pending supplied past = some t := by
  cases legs with
  | zero => cases h
  | succ legs =>
      rw [converse] at h
      cases hdrive : m.drive steps with
      | none => simp [hdrive] at h
      | some x =>
          refine ⟨x, rfl, fun m' hdrive' => ?_⟩
          rw [converse, hdrive']
          rw [hdrive] at h
          exact h

/-- Instructions that pass before a run make no difference to where it leads. -/
theorem Passes.drive_iff (h : Passes n m last) (x : Except Fault Stop × Machine) :
    (∃ steps, m.drive steps = some x) ↔ ∃ steps, last.drive steps = some x := by
  refine ⟨?_, ?_⟩
  · intro hdrive
    obtain ⟨steps, hdrive⟩ := hdrive
    exact ⟨steps, by rw [← h.drive_add]; exact drive_mono hdrive (Nat.le_add_left _ _)⟩
  · intro hdrive
    obtain ⟨steps, hdrive⟩ := hdrive
    exact ⟨n + steps, by rw [h.drive_add, hdrive]⟩

theorem Passes.converse_iff (h : Passes n m last) (pending : List Int) (supplied : Nat)
    (past : List Event) (t : Transcript) :
    (∃ steps, m.converse steps steps pending supplied past = some t) ↔
      ∃ steps, last.converse steps steps pending supplied past = some t := by
  refine ⟨?_, ?_⟩
  · intro hconverse
    obtain ⟨steps, hconverse⟩ := hconverse
    obtain ⟨x, hdrive, hcongr⟩ := converse_of_drive hconverse
    refine ⟨steps, hcongr last ?_⟩
    rw [← h.drive_add]
    exact drive_mono hdrive (Nat.le_add_left _ _)
  · intro hconverse
    obtain ⟨steps, hconverse⟩ := hconverse
    have hle : steps ≤ n + steps := Nat.le_add_left _ _
    -- the allowance of the whole run counts the instructions that were carried out
    have hlonger := converse_mono hle steps hconverse hle
    obtain ⟨x, hdrive, hcongr⟩ := converse_of_drive hlonger
    obtain ⟨y, hdrive', -⟩ := converse_of_drive hconverse
    refine ⟨n + steps, hcongr m ?_⟩
    rw [h.drive_add, hdrive', ← hdrive]
    exact (drive_mono hdrive' hle).symm

/-! ### Steps -/

theorem step_continues_iff (hfresh : m.started = false) (m' : Machine) :
    m.step = (.ok none, m') ↔ m.exec = (.ok none, m') := by
  simp only [step, hfresh, Bool.false_eq_true, if_false]
  rcases m.exec with ⟨fault | _ | stop, m''⟩ <;> simp

/-- The last step is the last instruction of a run, but for the flag of a step that fails. -/
theorem step_ends_iff (hfresh : m.started = false) (result : Except Fault Stop) (after : Machine) :
    (∃ m', m.step = (result.map some, m') ∧ after = { m' with started := true }) ↔
      { m with started := true }.exec = (result.map some, after) := by
  rw [exec_mark]
  simp only [step, hfresh, Bool.false_eq_true, if_false]
  rcases m.exec with ⟨fault | _ | stop, m'⟩ <;> cases result <;>
    simp [Except.map, eq_comm, and_assoc]

/-- **A run is the steps up to the first that does not continue.** -/
theorem run_iff_steps (hfresh : m.started = false) (result : Except Fault Stop) (after : Machine) :
    (∃ steps, m.run steps = some (result, after)) ↔
      ∃ n last m', Passes n m last ∧ last.step = (result.map some, m') ∧
        after = { m' with started := true } := by
  have hself : { m with started := false } = m := by rw [← hfresh]
  simp only [run, hfresh, Bool.false_eq_true, if_false, drive_iff_passes]
  refine ⟨?_, ?_⟩
  · intro hrun
    obtain ⟨n, last, hpasses, hexec⟩ := hrun
    have hstarted : last.started = true := hpasses.started
    have hunmarked := hpasses.mark false
    rw [hself] at hunmarked
    have hback : { { last with started := false } with started := true } = last := by rw [← hstarted]
    obtain ⟨m', hstep, hafter⟩ := (step_ends_iff (m := { last with started := false }) rfl result after).mpr
      (by rw [hback]; exact hexec)
    exact ⟨n, _, m', hunmarked, hstep, hafter⟩
  · intro hsteps
    obtain ⟨n, last, m', hpasses, hstep, hafter⟩ := hsteps
    have hlast : last.started = false := hpasses.started.trans hfresh
    exact ⟨n, _, hpasses.mark true, (step_ends_iff hlast result after).mp ⟨m', hstep, hafter⟩⟩

/-- Instructions that were carried out before a run make no difference to it. -/
theorem Passes.run_iff (h : Passes n m last) (hfresh : m.started = false)
    (x : Except Fault Stop × Machine) :
    (∃ steps, last.run steps = some x) ↔ ∃ steps, m.run steps = some x := by
  have hlast : last.started = false := h.started.trans hfresh
  simp only [run, hfresh, hlast, Bool.false_eq_true, if_false]
  exact ((h.mark true).drive_iff x).symm

theorem Passes.runWithInputs_iff (h : Passes n m last) (hfresh : m.started = false)
    (inputs : List Int) (t : Transcript) :
    (∃ steps, last.runWithInputs steps inputs = some t) ↔
      ∃ steps, m.runWithInputs steps inputs = some t := by
  have hlast : last.started = false := h.started.trans hfresh
  simp only [runWithInputs, hfresh, hlast, Bool.false_eq_true, if_false]
  exact ((h.mark true).converse_iff inputs 0 [] t).symm

end Machine

namespace Store

/-! ### What a call comes to -/

/-- What a reply names, without a reference. -/
def shown (s : Store) : Reply → Yield
  | .done => .done
  | .continues => .continues
  | .stopped q => .stop (s.stopped q).stop
  | .number n => .number n
  | .numbers ns => .numbers ns
  | .machine r => .machine (s.machine r)

/-- With some allowance, a call yields this and leaves the machine so. -/
def ComesTo (s : Store) (r : MachineRef) (c : Call) (yields : Except Fault Yield) (after : Machine) :
    Prop :=
  ∃ steps reply s', s.perform steps c = some (reply, s') ∧ reply.map s'.shown = yields ∧
    s'.machine r = after

variable {s s' : Store} {r r' : MachineRef}

theorem carry_shown (hr : s.Holds r) (d : Deed) :
    (s.carry r d).1.map (s.carry r d).2.shown = d.yields ∧ (s.carry r d).2.machine r = d.after := by
  have hafter := machine_setMachine hr d.after
  rcases d with ⟨m, fault | y⟩
  · exact ⟨rfl, hafter⟩
  · cases y with
    | done | continues | number _ | numbers _ => exact ⟨rfl, hafter⟩
    | stop stop =>
        have hnew := stopped_addStop_new (s.setMachine r m) r stop
        exact ⟨congrArg (fun h : Stopped => Except.ok (Yield.stop h.stop)) hnew, hafter⟩
    | machine m' =>
        have hnew := machine_addMachine (s.setMachine r m) m'
        have hold := machine_addMachine_old (hr.setMachine r m) m'
        exact ⟨congrArg (fun m => Except.ok (Yield.machine m)) hnew, hold.trans hafter⟩

theorem Holds.attend (hr : s.Holds r) (c : Call) : (s.attend c).Holds r := by
  refine ⟨?_, ?_⟩
  · rw [attend_frames]
    exact hr.frame
  · rw [attend_frame, attend_memories]
    exact hr.memory

/-- **A call comes to its deed.** -/
theorem comesTo_iff (hr : s.Holds r) {c : Call} (hc : c.subject s.stopped = r)
    (yields : Except Fault Yield) (after : Machine) :
    s.ComesTo r c yields after ↔
      ∃ steps, (s.machine r).deed steps (c.addressed s.stopped) c = some ⟨after, yields⟩ := by
  refine ⟨?_, ?_⟩
  · intro hcomes
    obtain ⟨steps, reply, s', hp, hreply, hmachine⟩ := hcomes
    rw [perform_eq, hc] at hp
    obtain ⟨d, hd, hcarry⟩ := Option.map_eq_some_iff.mp hp
    obtain ⟨hshown, hafter⟩ := carry_shown (hr.attend c) d
    rw [hcarry] at hshown hafter
    refine ⟨steps, ?_⟩
    rw [hd, ← hreply, ← hmachine, hshown, hafter]
  · intro hdeed
    obtain ⟨steps, hd⟩ := hdeed
    obtain ⟨hshown, hafter⟩ := carry_shown (hr.attend c) ⟨after, yields⟩
    refine ⟨steps, _, _, ?_, hshown, hafter⟩
    rw [perform_eq, hc, hd]
    rfl

/-! ### Steps of a machine in a store -/

/-- So many calls of step on the machine, each of which continues. -/
inductive Steps (r : MachineRef) : Nat → Store → Store → Prop where
  | refl (s : Store) : Steps r 0 s s
  | step {n steps : Nat} {s s' last : Store}
      (hstep : s.perform steps (.step r) = some (.ok .continues, s')) (hrest : Steps r n s' last) :
      Steps r (n + 1) s last

theorem step_continues {steps : Nat} (hr : s.Holds r)
    (hp : s.perform steps (.step r) = some (.ok .continues, s')) :
    s'.Holds r ∧ (s.machine r).step = (.ok none, s'.machine r) := by
  rw [perform, Option.some.injEq] at hp
  rcases hstep : (s.machine r).step with ⟨fault | _ | stop, m'⟩ <;> rw [hstep] at hp <;> cases hp
  exact ⟨hr.setMachine r m', by rw [machine_setMachine hr]⟩

/-- Steps that continue are instructions that pass. -/
theorem Steps.passes {n : Nat} (h : Steps r n s s') :
    s.Holds r → (s.machine r).started = false →
      s'.Holds r ∧ Machine.Passes n (s.machine r) (s'.machine r) := by
  induction h with
  | refl s => intro hr _; exact ⟨hr, .refl _⟩
  | step hp _ ih =>
      intro hr hfresh
      obtain ⟨hr', hstep⟩ := step_continues hr hp
      have hexec := (Machine.step_continues_iff hfresh _).mp hstep
      have hfresh' : _ = false := (Machine.Passes.step hexec (.refl _)).started.trans hfresh
      obtain ⟨hlast, hpasses⟩ := ih hr' hfresh'
      exact ⟨hlast, .step hexec hpasses⟩

theorem steps_of_passes {n : Nat} {m last : Machine} (h : Machine.Passes n m last) :
    ∀ {s : Store}, s.Holds r → s.machine r = m → m.started = false →
      ∃ s', Steps r n s s' ∧ s'.Holds r ∧ s'.machine r = last := by
  induction h with
  | refl m => intro s hr hm _; exact ⟨s, .refl s, hr, hm⟩
  | @step n m m' last hexec hrest ih =>
      intro s hr hm hfresh
      have hstep : s.perform 0 (.step r) = some (.ok .continues, s.setMachine r m') := by
        rw [perform, hm, (Machine.step_continues_iff hfresh m').mpr hexec]
        rfl
      have hfresh' : m'.started = false := (Machine.Passes.step hexec (.refl _)).started.trans hfresh
      obtain ⟨s', hsteps, hr', hlast⟩ := ih (hr.setMachine r m') (machine_setMachine hr m') hfresh'
      exact ⟨s', .step hstep hsteps, hr', hlast⟩

/-! ### What driving a machine comes to

For each call that drives a machine, what it comes to is what the machine comes to by itself.  The
references are gone from here on.
-/

theorem comesTo_step_iff (hr : s.Holds r) (yields : Except Fault Yield) (after : Machine) :
    s.ComesTo r (.step r) yields after ∧ yields ≠ .ok .continues ↔
      ∃ result : Except Fault Stop, yields = result.map .stop ∧
        (s.machine r).step = (result.map some, after) := by
  have hdeed : s.ComesTo r (.step r) yields after ↔
      Deed.ofOutcome (s.machine r).step = ⟨after, yields⟩ := by
    rw [comesTo_iff hr rfl]
    simp only [Machine.deed, Option.some.injEq, exists_const]
  rw [hdeed]
  rcases (s.machine r).step with ⟨fault | _ | stop, m⟩
  · refine ⟨?_, ?_⟩
    · rintro ⟨h, -⟩
      cases h
      exact ⟨.error fault, rfl, rfl⟩
    · rintro ⟨result, rfl, h⟩
      cases result <;> cases h
      exact ⟨rfl, by simp [Except.map]⟩
  · refine ⟨?_, ?_⟩
    · rintro ⟨h, hne⟩
      cases h
      exact absurd rfl hne
    · rintro ⟨result, -, h⟩
      cases result <;> cases h
  · refine ⟨?_, ?_⟩
    · rintro ⟨h, -⟩
      cases h
      exact ⟨.ok stop, rfl, rfl⟩
    · rintro ⟨result, rfl, h⟩
      cases result <;> cases h
      exact ⟨rfl, by simp [Except.map]⟩

theorem ofOutcome_eq_iff (x : Except Fault Stop × Machine) (yields : Except Fault Yield)
    (after : Machine) :
    Deed.ofOutcome (x.1.map some, x.2) = ⟨after, yields⟩ ↔ yields = x.1.map .stop ∧ x.2 = after := by
  rcases x with ⟨fault | stop, m⟩ <;> simp [Deed.ofOutcome, Except.map, eq_comm, and_comm]

theorem comesTo_run_iff (hr : s.Holds r) (yields : Except Fault Yield) (after : Machine) :
    s.ComesTo r (.run r) yields after ↔
      ∃ result : Except Fault Stop, yields = result.map .stop ∧
        ∃ steps, (s.machine r).run steps = some (result, after) := by
  rw [comesTo_iff hr rfl]
  simp only [Machine.deed, Option.map_eq_some_iff, ofOutcome_eq_iff, Prod.exists]
  grind

theorem comesTo_runWithInputs_iff (hr : s.Holds r) (inputs : List Int) (yields : Except Fault Yield)
    (after : Machine) :
    s.ComesTo r (.runWithInputs r inputs) yields after ↔
      ∃ t : Transcript, (yields = t.result.map fun _ => .numbers t.outputs) ∧ t.machine = after ∧
        ∃ steps, (s.machine r).runWithInputs steps inputs = some t := by
  rw [comesTo_iff hr rfl]
  simp only [Machine.deed, Option.map_eq_some_iff, Deed.mk.injEq]
  grind

theorem comesTo_resume_iff {q : StopRef} (hr : s.Holds r) (hlive : s.Live r q) (value : Int)
    (yields : Except Fault Yield) (after : Machine) :
    s.ComesTo r (.resume q value) yields after ↔
      ∃ result : Except Fault Stop, yields = result.map .stop ∧
        ∃ steps, ((s.machine r).answer (s.stopped q).stop value).drive steps = some (result, after) := by
  rw [comesTo_iff (c := .resume q value) hr hlive.machine]
  simp only [Machine.deed, Call.addressed, hlive.refusal, Option.map_eq_some_iff, ofOutcome_eq_iff,
    Prod.exists]
  grind

theorem comesTo_resume_iff_passes {q : StopRef} (hr : s.Holds r) (hlive : s.Live r q) (value : Int)
    (yields : Except Fault Yield) (after : Machine) :
    s.ComesTo r (.resume q value) yields after ↔
      ∃ n last, ∃ result : Except Fault Stop,
        Machine.Passes n ((s.machine r).answer (s.stopped q).stop value) last ∧
          last.exec = (result.map some, after) ∧ yields = result.map .stop := by
  simp only [comesTo_resume_iff hr hlive, Machine.drive_iff_passes]
  refine ⟨?_, ?_⟩
  · intro hresume
    obtain ⟨result, hyields, n, last, hpasses, hexec⟩ := hresume
    exact ⟨n, last, result, hpasses, hexec, hyields⟩
  · intro hpasses
    obtain ⟨n, last, result, hpasses, hexec, hyields⟩ := hpasses
    exact ⟨result, hyields, n, last, hpasses, hexec⟩

/--
**Running is stepping on.**  Take a machine in a store, and a second one in the same state,
in that store or another.  A run of the first that was neither run nor stopped comes to a
stop or to a fault exactly when so many steps of the second continue and the next one comes
to the same; the memories, the program counters and the relative bases are then equal, and
the run leaves its machine started.  A machine of which so many steps have continued may be
run, or run with inputs, and comes to what it would have come to at once.  Answering a live
pause is going on instruction by instruction, up to the first that stops or fails: after a
request, with the value written at the address that was asked for, and after an output with
the machine as it is.
-/
theorem run_comes_to_iterated_step (hr : s.Holds r) (hr' : s'.Holds r')
    (hsame : s'.machine r' = s.machine r) :
    ((s.machine r).started = false → ∀ yields after,
      s.ComesTo r (.run r) yields after ↔
        ∃ n last m', Steps r' n s' last ∧ last.ComesTo r' (.step r') yields m' ∧
          yields ≠ .ok .continues ∧ after = { m' with started := true }) ∧
    ((s.machine r).started = false → ∀ k last, Steps r' k s' last → ∀ yields after,
      (last.ComesTo r' (.run r') yields after ↔ s.ComesTo r (.run r) yields after) ∧
      ∀ inputs, (last.ComesTo r' (.runWithInputs r' inputs) yields after ↔
        s.ComesTo r (.runWithInputs r inputs) yields after)) ∧
    (∀ q destination, s.Live r q → (s.stopped q).stop = .input destination → ∀ value yields after,
      s.ComesTo r (.resume q value) yields after ↔
        ∃ n last, ∃ result : Except Fault Stop,
          Machine.Passes n
              { s.machine r with memory := (s.machine r).memory.put destination value } last ∧
            last.exec = (result.map some, after) ∧ yields = result.map .stop) ∧
    ∀ q output, s.Live r q → (s.stopped q).stop = .output output → ∀ value yields after,
      s.ComesTo r (.resume q value) yields after ↔
        ∃ n last, ∃ result : Except Fault Stop,
          Machine.Passes n (s.machine r) last ∧
            last.exec = (result.map some, after) ∧ yields = result.map .stop := by
  refine ⟨fun hfresh yields after => ?_, fun hfresh k last hsteps yields after => ?_,
    fun q destination hlive hstop value yields after => ?_,
    fun q output hlive hstop value yields after => ?_⟩
  · have hfresh' : (s'.machine r').started = false := by rw [hsame, hfresh]
    simp only [comesTo_run_iff hr, Machine.run_iff_steps hfresh]
    refine ⟨?_, ?_⟩
    · intro hrun
      obtain ⟨result, hyields, n, last, m', hpasses, hstep, hafter⟩ := hrun
      obtain ⟨t, hsteps, ht, rfl⟩ := steps_of_passes hpasses hr' hsame hfresh
      obtain ⟨hcomes, hstops⟩ := (comesTo_step_iff ht yields m').mpr ⟨result, hyields, hstep⟩
      exact ⟨n, t, m', hsteps, hcomes, hstops, hafter⟩
    · intro hsteps
      obtain ⟨n, t, m', hsteps, hcomes, hstops, hafter⟩ := hsteps
      obtain ⟨ht, hpasses⟩ := hsteps.passes hr' hfresh'
      obtain ⟨result, hyields, hstep⟩ := (comesTo_step_iff ht yields m').mp ⟨hcomes, hstops⟩
      exact ⟨result, hyields, n, _, m', hsame ▸ hpasses, hstep, hafter⟩
  · obtain ⟨hlast, hpasses⟩ := hsteps.passes hr' (by rw [hsame, hfresh])
    rw [hsame] at hpasses
    refine ⟨?_, fun inputs => ?_⟩
    · simp only [comesTo_run_iff hlast, comesTo_run_iff hr, hpasses.run_iff hfresh]
    · simp only [comesTo_runWithInputs_iff hlast, comesTo_runWithInputs_iff hr,
        hpasses.runWithInputs_iff hfresh]
  · rw [comesTo_resume_iff_passes hr hlive, hstop, Machine.answer]
  · rw [comesTo_resume_iff_passes hr hlive, hstop, Machine.answer]

/-- Two machines with one program, which adds and then puts out seven. -/
def twins : Store :=
  let m : Machine := { memory := .ofValues [1101, 2, 3, 0, 104, 7, 99] }
  ((empty.addMachine m).2.addMachine m).2

/-- A machine that has asked for a value at address five, where it will put out what is there. -/
def asked : Store :=
  let m : Machine := { memory := .ofValues [3, 5, 4, 5, 99], pc := 2, started := true }
  ((empty.addMachine m).2.addStop ⟨0⟩ (.input 5)).2

/-- The one twin is run and the other stepped, and a machine that was asked is answered. -/
theorem twins_run_as_stepped :
    (twins.Holds ⟨0⟩ ∧ twins.Holds ⟨1⟩ ∧ twins.machine ⟨1⟩ = twins.machine ⟨0⟩ ∧
      (twins.machine ⟨0⟩).started = false ∧
      ∃ n last m', Steps ⟨1⟩ n twins last ∧
        last.ComesTo ⟨1⟩ (.step ⟨1⟩) (.ok (.stop (.output 7))) m' ∧
        m'.memory.get 0 = 5 ∧ m'.pc = 6) ∧
    (asked.Live ⟨0⟩ ⟨0⟩ ∧ (asked.stopped ⟨0⟩).stop = .input 5 ∧
      ∃ n last after, Machine.Passes n
          { asked.machine ⟨0⟩ with memory := (asked.machine ⟨0⟩).memory.put 5 8 } last ∧
        last.exec = (.ok (some (.output 8)), after)) := by
  have hfirst : twins.Holds ⟨0⟩ := ⟨by decide, by decide⟩
  have hsecond : twins.Holds ⟨1⟩ := ⟨by decide, by decide⟩
  have hrun : ∃ after, twins.ComesTo ⟨0⟩ (.run ⟨0⟩) (.ok (.stop (.output 7))) after ∧
      after.memory.get 0 = 5 ∧ after.pc = 6 := ⟨_, ⟨2, _, _, rfl, rfl, rfl⟩, rfl, rfl⟩
  obtain ⟨after, hrun, hvalue, hpc⟩ := hrun
  obtain ⟨n, last, m', hsteps, hcomes, -, rfl⟩ :=
    ((run_comes_to_iterated_step hfirst hsecond rfl).1 rfl _ after).mp hrun
  have hasked : asked.Holds ⟨0⟩ := ⟨by decide, by decide⟩
  have hlive : asked.Live ⟨0⟩ ⟨0⟩ := ⟨by decide, rfl, nofun, rfl⟩
  have hresume : ∃ after, asked.ComesTo ⟨0⟩ (.resume ⟨0⟩ 8) (.ok (.stop (.output 8))) after :=
    ⟨_, 1, _, _, rfl, rfl, rfl⟩
  obtain ⟨echoed, hresume⟩ := hresume
  obtain ⟨k, before, result, hpasses, hexec, hyields⟩ :=
    ((run_comes_to_iterated_step hasked hasked rfl).2.2.1 ⟨0⟩ 5 hlive rfl 8 _ echoed).mp hresume
  refine ⟨⟨hfirst, hsecond, rfl, rfl, n, last, m', hsteps, hcomes, hvalue, hpc⟩,
    hlive, rfl, k, before, echoed, hpasses, ?_⟩
  -- what it yields tells what the last instruction stopped with
  cases result with
  | error fault => cases hyields
  | ok stop =>
      cases hyields
      exact hexec

end Store

end Advent.Intcode
