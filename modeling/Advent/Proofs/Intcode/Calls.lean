/-
Every call concerns one machine.

`perform` does a call in a store.  What the call comes to is settled at the one machine
that it concerns, without a look at anything else: the machine is left in another state,
and something is yielded, which may be a stop or a machine that has no reference yet.
`Machine.deed` is that part of a call.  What is left is the same for every call:
`Store.carry` brings the machine into its new state and finds a place for what is new.

`perform_eq` says that a call is its deed carried out.  What is to be shown of every call
can be shown of deeds, which know nothing of a store, and of `carry`, which knows nothing
of the call.
-/
import Advent.Proofs.Intcode.Objects

namespace Advent.Intcode

/-- Why a stop cannot be answered, if it cannot. -/
def Stopped.refusal (h : Stopped) : Option Fault :=
  match h.stop, h.answered with
  | .halt, _ => some .alreadyStopped
  | .input _, true => some (.alreadyResumed .input)
  | .output _, true => some (.alreadyResumed .output)
  | _, false => none

/-- What a call yields, before what is new of it has a reference. -/
inductive Yield where
  | done
  | continues
  | number (n : Int)
  | numbers (ns : List Int)
  | stop (stop : Stop)
  | machine (m : Machine)

/-- What a call comes to at the machine that it concerns. -/
structure Deed where
  after : Machine
  yields : Except Fault Yield

/-- The deed of a call that drives a machine. -/
def Deed.ofOutcome (x : Except Fault (Option Stop) × Machine) : Deed :=
  ⟨x.2, x.1.map fun stop? => stop?.elim .continues .stop⟩

/-- The deed of a call that reads at the program counter. -/
def Deed.ofReading {α : Type} (yields : α → Yield) (x : Except Fault α × Machine) : Deed :=
  ⟨x.2, x.1.map yields⟩

/-- The deed of a call, where `h` is the stop that it answers, if it answers one. -/
def Machine.deed (steps : Nat) (h : Stopped) (m : Machine) : Call → Option Deed
  | .step _ => some (.ofOutcome m.step)
  | .run _ => (m.run steps).map fun x => .ofOutcome (x.1.map some, x.2)
  | .resume _ value =>
    match h.refusal with
    | some fault => some ⟨m, .error fault⟩
    | none => ((m.answer h.stop value).drive steps).map fun x => .ofOutcome (x.1.map some, x.2)
  | .runWithInputs _ inputs =>
    (m.runWithInputs steps inputs).map fun t => ⟨t.machine, t.result.map fun _ => .numbers t.outputs⟩
  | .get _ a => some ⟨m, (m.get a).map .number⟩
  | .put _ a value =>
    match m.put a value with
    | .ok after => some ⟨after, .ok .done⟩
    | .error fault => some ⟨m, .error fault⟩
  | .copy _ => some ⟨m, .ok (.machine m.copy)⟩
  | .readWord _ => some (.ofReading (fun w => .number w.raw) m.readWord)
  | .readInput _ mode => some (.ofReading .number (m.readInput mode))
  | .readOutput _ mode => some (.ofReading .number (m.readOutput mode))
  | .readParams _ word roles =>
    match Word.ofInt word with
    | .error fault => some ⟨m, .error fault⟩
    | .ok w => some (.ofReading .numbers (m.readParams w roles))

namespace Call

/-- The stop that a call answers, where the stops are looked up like this. -/
def addressed (stopped : StopRef → Stopped) : Call → Stopped
  | .resume q _ => stopped q
  | _ => default

/-- The machine that a call concerns. -/
def subject (stopped : StopRef → Stopped) : Call → MachineRef
  | .resume q _ => (stopped q).machine
  | .step r | .run r | .runWithInputs r _ | .get r _ | .put r _ _ | .copy r | .readWord r
  | .readInput r _ | .readOutput r _ | .readParams r _ _ => r

end Call

namespace Store

/-- Mark the stop that a call answers, unless it is refused. -/
def attend (s : Store) : Call → Store
  | .resume q _ => if (s.stopped q).refusal = none then s.markAnswered q else s
  | _ => s

/-! ### A call in two parts

The first part looks at the store to find the machine and, if there is one, the stop.  It marks the
stop and touches nothing else.  The second part looks at nothing but the machine.
-/

theorem attend_memories (s : Store) (c : Call) : (s.attend c).memories = s.memories := by
  cases c with
  | resume q value => rw [attend]; split <;> rfl
  | _ => rfl

theorem attend_frames (s : Store) (c : Call) : (s.attend c).frames = s.frames := by
  cases c with
  | resume q value => rw [attend]; split <;> rfl
  | _ => rfl

theorem attend_frame (s : Store) (c : Call) (p : MachineRef) : (s.attend c).frame p = s.frame p := by
  rw [frame, attend_frames]
  rfl

/-- Find a place for what a call of this machine yields. -/
def give (s : Store) (r : MachineRef) : Except Fault Yield → Except Fault Reply × Store
  | .error fault => (.error fault, s)
  | .ok .done => (.ok .done, s)
  | .ok .continues => (.ok .continues, s)
  | .ok (.number n) => (.ok (.number n), s)
  | .ok (.numbers ns) => (.ok (.numbers ns), s)
  | .ok (.stop stop) =>
    let (q, s) := s.addStop r stop
    (.ok (.stopped q), s)
  | .ok (.machine m) =>
    let (r', s) := s.addMachine m
    (.ok (.machine r'), s)

/-- Bring the machine into the state that a deed leaves it in, and find a place for what it yields.
-/
def carry (s : Store) (r : MachineRef) (d : Deed) : Except Fault Reply × Store :=
  (s.setMachine r d.after).give r d.yields

/-- A deed that leaves the machine where it stands. -/
theorem carry_self (s : Store) (r : MachineRef) (y : Except Fault Yield) :
    s.carry r ⟨s.machine r, y⟩ = s.give r y := by
  show (s.setMachine r (s.machine r)).give r y = _
  rw [setMachine_self]

theorem settle_eq_carry (s : Store) (r : MachineRef) (x : Except Fault (Option Stop) × Machine) :
    s.settle r x = s.carry r (.ofOutcome x) := by
  rcases x with ⟨fault | _ | stop, m⟩ <;> rfl

theorem settleReading_eq_carry (s : Store) (r : MachineRef) {α : Type} {reply : α → Reply}
    {yields : α → Yield} (h : ∀ (t : Store) a, t.give r (.ok (yields a)) = (.ok (reply a), t))
    (x : Except Fault α × Machine) :
    s.settleReading r reply x = s.carry r (.ofReading yields x) := by
  rcases x with ⟨fault | a, m⟩
  · rfl
  · exact (h (s.setMachine r m) a).symm

/-- An answer to a stop is refused, or it lets the machine run on from the stop. -/
theorem perform_resume_eq (s : Store) (steps : Nat) (q : StopRef) (value : Int) :
    s.perform steps (.resume q value) =
      match (s.stopped q).refusal with
      | some fault => some (.error fault, s)
      | none =>
        (((s.machine (s.stopped q).machine).answer (s.stopped q).stop value).drive steps).map
          fun x => (s.markAnswered q).settle (s.stopped q).machine (x.1.map some, x.2) := by
  have hbind : ∀ (x : Option (Except Fault Stop × Machine)) (t : Store) (r : MachineRef),
      (x.bind fun x => some (t.settle r (x.1.map some, x.2))) =
        x.map fun x => t.settle r (x.1.map some, x.2) := by
    intro x t r
    cases x <;> rfl
  rw [perform]
  generalize s.stopped q = h
  rcases h with ⟨r, stop, answered⟩
  cases stop with
  | halt => rfl
  | input _ | output _ =>
      cases answered with
      | true => rfl
      | false => exact hbind _ _ _

/-- **A call is its deed, carried out.** -/
theorem perform_eq (s : Store) (steps : Nat) (c : Call) :
    s.perform steps c =
      ((s.machine (c.subject s.stopped)).deed steps (c.addressed s.stopped) c).map
        ((s.attend c).carry (c.subject s.stopped)) := by
  cases c with
  | step r => exact congrArg some (settle_eq_carry s r _)
  | run r =>
      rw [perform, Machine.deed, Call.subject]
      cases (s.machine r).run steps with
      | none => rfl
      | some x => exact congrArg some (settle_eq_carry s r _)
  | resume q value =>
      rw [perform_resume_eq, Machine.deed, Call.subject, Call.addressed, attend]
      cases (s.stopped q).refusal with
      | some fault => exact congrArg some (carry_self s _ (.error fault)).symm
      | none =>
          dsimp only
          cases ((s.machine (s.stopped q).machine).answer (s.stopped q).stop value).drive steps with
          | none => rfl
          | some x => exact congrArg some (settle_eq_carry _ _ _)
  -- from here on no call gives out a stop
  | runWithInputs r inputs =>
      rw [perform, Machine.deed, Call.subject]
      cases (s.machine r).runWithInputs steps inputs with
      | none => rfl
      | some t =>
          obtain ⟨events, result, m⟩ := t
          cases result <;> rfl
  | get r a =>
      have hself := carry_self s r (((s.machine r).get a).map .number)
      refine congrArg some (Eq.trans ?_ hself.symm)
      rcases (s.machine r).get a with fault | value <;> rfl
  | put r a value =>
      rw [perform, Machine.deed, Call.subject]
      cases (s.machine r).put a value with
      | error fault => exact congrArg some (carry_self s r (.error fault)).symm
      | ok m => rfl
  | copy r => exact congrArg some (carry_self s r (.ok (.machine (s.machine r).copy))).symm
  | readWord r => exact congrArg some (settleReading_eq_carry s r (fun _ _ => rfl) _)
  | readInput r mode => exact congrArg some (settleReading_eq_carry s r (fun _ _ => rfl) _)
  | readOutput r mode => exact congrArg some (settleReading_eq_carry s r (fun _ _ => rfl) _)
  | readParams r word roles =>
      rw [perform, Machine.deed, Call.subject]
      cases Word.ofInt word with
      | error fault => exact congrArg some (carry_self s r (.error fault)).symm
      | ok w => exact congrArg some (settleReading_eq_carry s r (fun _ _ => rfl) _)

end Store

end Advent.Intcode
