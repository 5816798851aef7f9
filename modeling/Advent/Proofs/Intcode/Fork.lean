/-
A fork goes on like its original.

A paused machine can be driven on in two ways.  Its pause is answered, which goes on with
the machine itself; or the machine is copied, the value it waits for is put into the
copy, and the copy is run.  A copy is a machine that was not run, its extent is that of
its cells, and the value goes through the check of an address.  None of this shows: the
extent of every memory that calls can lead to is that of its cells, and the address
that is waited for is never negative.

`Shows` ties a machine in a store to a machine by itself, and `Follows` says of a way to
go on that it keeps this up.  Both ways do, so both come to the stops of the machine by
itself, at every pause and through any number of them.
-/
import Advent.Proofs.Intcode.Once
import Advent.Proofs.Intcode.Reachable

namespace Advent.Intcode

/-- What is seen of a machine after a call: what came of the call, and where it stands. -/
structure Sight where
  outcome : Except Fault (Option Stop)
  memory : Memory
  pc : Int
  relativeBase : Int

/-- What is seen of a machine of which this came. -/
def Machine.sight (m : Machine) (outcome : Except Fault (Option Stop)) : Sight :=
  ⟨outcome, m.memory, m.pc, m.relativeBase⟩

/-- The value that a stop is answered with, and the values left for later ones.  There is
no answer to a halt, nor to a machine that wants a value when there is none. -/
def Stop.hand (inputs : List Int) : Stop → Option (Int × List Int)
  | .input _ =>
    match inputs with
    | [] => none
    | value :: inputs => some (value, inputs)
  | .output _ => some (0, inputs)
  | .halt => none

/-- A machine in a store, and the reply to the latest call of it. -/
structure Stand where
  store : Store
  machine : MachineRef
  reply : Except Fault Reply

namespace Store

/-- The stop in a reply. -/
def stop? (s : Store) : Reply → Option Stop
  | .stopped q => some (s.stopped q).stop
  | _ => none

/-! ### Two ways to go on

Each way ends with the machine that was driven on and with what came of it.  They are written in
terms of calls alone, so nothing that a caller could not do himself is hidden in them.
-/

/-- Run the machine. -/
def start (steps : Nat) (s : Store) (r : MachineRef) : Option Stand := do
  let (reply, s) ← s.perform steps (.run r)
  return ⟨s, r, reply⟩

/-- Answer the pause. -/
def resume (steps : Nat) (s : Store) (q : StopRef) (value : Int) : Option Stand := do
  let (reply, s') ← s.perform steps (.resume q value)
  return ⟨s', (s.stopped q).machine, reply⟩

/-- Put a value where a machine that has stopped wants it. -/
def supply (steps : Nat) (s : Store) (r : MachineRef) (value : Int) :
    Stop → Option (Except Fault Reply × Store)
  | .input destination => s.perform steps (.put r destination value)
  | .output _ | .halt => some (.ok .done, s)

/-- Copy the machine that has paused, put the value it wants into the copy, and run that. -/
def fork (steps : Nat) (s : Store) (q : StopRef) (value : Int) : Option Stand := do
  let (.ok (.machine c), s₁) ← s.perform steps (.copy (s.stopped q).machine) | none
  let (.ok .done, s₂) ← s₁.supply steps c value (s.stopped q).stop | none
  s₂.start steps c

end Store

namespace Stand

/-- What is seen of a machine in a store. -/
def sight (t : Stand) : Sight :=
  (t.store.machine t.machine).sight (t.reply.map t.store.stop?)

/-- What is seen of a machine that is driven on in one of these ways, through at most so
many pauses and with these input values. -/
def journey (goOn : Store → StopRef → Int → Option Stand) :
    Nat → List Int → Stand → Option (List Sight)
  | 0, _, t => some [t.sight]
  | n + 1, inputs, t =>
    match t.reply with
    | .ok (.stopped q) =>
      match (t.store.stopped q).stop.hand inputs with
      | none => some [t.sight]
      | some (value, inputs) => do
        let next ← goOn t.store q value
        let later ← journey goOn n inputs next
        return t.sight :: later
    | _ => some [t.sight]

end Stand

namespace Machine

/-- The same of a machine by itself, from what came of driving it on. -/
def journey (steps : Nat) : Nat → List Int → Except Fault Stop × Machine → Option (List Sight)
  | 0, _, (result, m) => some [m.sight (result.map some)]
  | _ + 1, _, (.error fault, m) => some [m.sight (.error fault)]
  | n + 1, inputs, (.ok stop, m) =>
    match stop.hand inputs with
    | none => some [m.sight (.ok (some stop))]
    | some (value, inputs) => do
      let next ← (m.answer stop value).drive steps
      let later ← journey steps n inputs next
      return m.sight (.ok (some stop)) :: later

theorem answer_mark (m : Machine) (started : Bool) (stop : Stop) (value : Int) :
    { m with started }.answer stop value = { m.answer stop value with started } := by
  cases stop <;> rfl

end Machine

/-! ### A machine in a store and by itself -/

/-- The machine in the store is this one, but for the flag, and has come to the same stop,
which can be answered, or to the same fault. -/
structure Shows (t : Stand) (x : Except Fault Stop × Machine) : Prop where
  sound : t.store.Sound Memory.Tight
  holds : t.store.Holds t.machine
  machine : ∃ started, t.store.machine t.machine = { x.2 with started }
  reply : (∃ fault, t.reply = .error fault ∧ x.1 = .error fault) ∨
    ∃ q, t.reply = .ok (.stopped q) ∧ x.1 = .ok (t.store.stopped q).stop ∧
      ((t.store.stopped q).stop ≠ .halt → t.store.Live t.machine q)

theorem Shows.sight {t : Stand} {x : Except Fault Stop × Machine} (h : Shows t x) :
    t.sight = x.2.sight (x.1.map some) := by
  obtain ⟨started, hmachine⟩ := h.machine
  have houtcome : t.reply.map t.store.stop? = x.1.map some := by
    rcases h.reply with ⟨fault, hreply, hx⟩ | ⟨q, hreply, hx, -⟩
    · rw [hreply, hx]
      rfl
    · rw [hreply, hx]
      rfl
  rw [Stand.sight, houtcome, hmachine]
  rfl

theorem sights_of_rel {t? : Option Stand} {x? : Option (Except Fault Stop × Machine)}
    (h : Option.Rel Shows t? x?) :
    t?.map Stand.sight = x?.map fun x => x.2.sight (x.1.map some) := by
  cases h with
  | none => rfl
  | some h => exact congrArg some h.sight

/-- A way to go on that keeps showing a machine by itself. -/
def Follows (steps : Nat) (goOn : Store → StopRef → Int → Option Stand) : Prop :=
  ∀ {s : Store} {r : MachineRef} {q : StopRef} {m : Machine} {started : Bool},
    s.Sound Memory.Tight → s.Holds r → s.Live r q → s.machine r = { m with started } →
    ∀ value, Option.Rel Shows (goOn s q value) ((m.answer (s.stopped q).stop value).drive steps)

/-- **Whatever follows a machine sees its journey**, by induction on the number of pauses. -/
theorem Follows.journey {steps : Nat} {goOn : Store → StopRef → Int → Option Stand}
    (hgoes : Follows steps goOn) (n : Nat) :
    ∀ {t : Stand} {x : Except Fault Stop × Machine} (inputs : List Int), Shows t x →
      t.journey goOn n inputs = Machine.journey steps n inputs x := by
  induction n with
  | zero =>
      intro t x inputs h
      rw [Stand.journey, Machine.journey, h.sight]
  | succ n ih =>
      intro t x inputs h
      have hsight := h.sight
      obtain ⟨result, m⟩ := x
      obtain ⟨started, hmachine⟩ := h.machine
      rw [Stand.journey]
      rcases h.reply with ⟨fault, hreply, rfl⟩ | ⟨q, hreply, rfl, hlive⟩
      · rw [hreply, Machine.journey, hsight]
        rfl
      · rw [hreply, Machine.journey]
        dsimp only
        cases hhand : (t.store.stopped q).stop.hand inputs with
        | none =>
            rw [hsight]
            rfl
        | some given =>
            obtain ⟨value, rest⟩ := given
            -- there is a value to go on with, so the machine has not halted and its pause is live
            have hstop : (t.store.stopped q).stop ≠ .halt := by
              intro hhalt
              rw [hhalt] at hhand
              cases hhand
            have hnext := hgoes h.sound h.holds (hlive hstop) hmachine value
            dsimp only
            generalize goOn t.store q value = y, Machine.drive steps _ = y' at hnext
            cases hnext with
            | none => rfl
            | some hshows =>
                simp only [Option.bind_eq_bind, Option.bind_some, ih rest hshows, hsight]
                rfl

namespace Store

variable {s : Store} {r : MachineRef} {m : Machine}

/-- Where a machine stands that was driven on and is brought back. -/
def settled (s : Store) (r : MachineRef) (x : Except Fault Stop × Machine) : Stand :=
  ⟨(s.settle r (x.1.map some, x.2)).2, r, (s.settle r (x.1.map some, x.2)).1⟩

theorem shows_settled (hs : s.Sound Memory.Tight) (hr : s.Holds r) {result : Except Fault Stop}
    (hm : Machine.Sound Memory.Tight (result.map some, m)) {started : Bool} {m' : Machine}
    (hm' : m' = { m with started }) : Shows (s.settled r (result, m')) (result, m) := by
  have hsettled := settle_settled hr (result.map some) m'
  have hsound : (s.settle r (result.map some, m')).2.Sound Memory.Tight := by
    rw [settle_eq_carry, hm']
    exact hs.carry r (Deed.ofOutcome_sound ⟨hm.memory, hm.destination⟩)
  refine ⟨hsound, hsettled.holds, ⟨started, hsettled.machine.trans hm'⟩, ?_⟩
  cases result with
  | error fault => exact Or.inl ⟨fault, rfl, rfl⟩
  | ok stop =>
      have hnew := stopped_addStop_new (s.setMachine r m') r stop
      have hheld : s.stops.size < (s.stops.push ⟨r, stop, false⟩).size := by
        rw [Array.size_push]
        exact Nat.lt_succ_self _
      refine Or.inr ⟨_, rfl, congrArg Except.ok (congrArg Stopped.stop hnew).symm, fun hhalt => ?_⟩
      exact ⟨hheld, congrArg Stopped.machine hnew, hhalt, congrArg Stopped.answered hnew⟩

/-- Driving a machine shows it where it comes to stand, whatever its flag says. -/
theorem shows_drive (hs : s.Sound Memory.Tight) (hr : s.Holds r) (hm : m.memory.Tight)
    (steps : Nat) (started : Bool) :
    Option.Rel Shows ((Machine.drive steps { m with started }).map (s.settled r))
      (m.drive steps) := by
  rw [Machine.drive_mark]
  cases hdrive : m.drive steps with
  | none => exact .none
  | some x =>
      have hsound := Machine.drive_sound Memory.tight_lasting steps hm hdrive
      exact .some (shows_settled hs hr hsound rfl)

theorem Sound.tight (hs : s.Sound Memory.Tight) {started : Bool}
    (hm : s.machine r = { m with started }) : m.memory.Tight := by
  have := hs.machine r
  rwa [hm] at this

theorem Sound.answer_tight (hs : s.Sound Memory.Tight) {started : Bool}
    (hm : s.machine r = { m with started }) (q : StopRef) (value : Int) :
    (m.answer (s.stopped q).stop value).memory.Tight :=
  Machine.answer_sound Memory.tight_lasting (hs.tight hm) (hs.destination q) value

/-- **Answering a pause follows the machine.** -/
theorem resume_follows (steps : Nat) : Follows steps (resume steps) := by
  intro s r q m started hs hr hlive hm value
  have hshows := shows_drive (s := s.markAnswered q) (hs.markAnswered q) ⟨hr.frame, hr.memory⟩
    (hs.answer_tight hm q value) steps started
  rw [← Machine.answer_mark, ← hm] at hshows
  have hresume : s.resume steps q value =
      (Machine.drive steps ((s.machine r).answer (s.stopped q).stop value)).map
        ((s.markAnswered q).settled r) := by
    rw [resume, perform_resume hlive, hlive.machine]
    cases Machine.drive steps ((s.machine r).answer (s.stopped q).stop value) <;> rfl
  rw [hresume]
  exact hshows

theorem start_eq (hfresh : (s.machine r).started = false) (steps : Nat) :
    s.start steps r =
      (Machine.drive steps { s.machine r with started := true }).map (s.settled r) := by
  rw [start, perform_run hfresh]
  cases Machine.drive steps { s.machine r with started := true } <;> rfl

/-- A machine that was not run shows itself when it is. -/
theorem start_shows (hs : s.Sound Memory.Tight) (hr : s.Holds r) (hm : m.memory.Tight)
    (hmachine : s.machine r = { m with started := false }) (steps : Nat) :
    Option.Rel Shows (s.start steps r) (m.drive steps) := by
  have hfresh : (s.machine r).started = false := by rw [hmachine]
  rw [start_eq hfresh, hmachine]
  exact shows_drive hs hr hm steps true

/-- A copy that was supplied with a value is the machine that was answered with it. -/
theorem supply_eq (steps : Nat) (value : Int) {stop : Stop}
    (hstop : ∀ destination, stop = .input destination → 0 ≤ destination) :
    s.supply steps r value stop =
      some (.ok .done, s.setMachine r ((s.machine r).answer stop value)) := by
  cases stop with
  | input destination =>
      have haddress := (Machine.address_ok_iff destination destination).mpr ⟨hstop destination rfl, rfl⟩
      rw [supply, perform, Machine.put, haddress]
      rfl
  | output _ | halt =>
      rw [supply, Machine.answer, setMachine_self]

/-- **Running a copy that was supplied follows the machine.** -/
theorem fork_follows (steps : Nat) : Follows steps (fork steps) := by
  intro s r q m started hs hr hlive hm value
  have htight := hs.tight hm
  have hanswer := hs.answer_tight hm q value
  -- the copy is the machine, ready to be run
  have hcopied : s.perform steps (.copy (s.stopped q).machine) =
      some (.ok (.machine (s.addMachine { m with started := false }).1),
        (s.addMachine { m with started := false }).2) := by
    rw [hlive.machine, perform, hm, Machine.copy, Memory.copy_of_tight htight]
  have hcopy := machine_addMachine s { m with started := false }
  have hholds := holds_addMachine s { m with started := false }
  have hsound := hs.addMachine (m := { m with started := false }) htight
  generalize s.addMachine { m with started := false } = copied at hcopied hcopy hholds hsound
  obtain ⟨c, s₁⟩ := copied
  -- and then it is the machine that was answered
  have hsupplied := supply_eq (s := s₁) (r := c) steps value (hs.destination q)
  rw [hcopy, Machine.answer_mark] at hsupplied
  have hfork : s.fork steps q value =
      (s₁.setMachine c { m.answer (s.stopped q).stop value with started := false }).start steps c := by
    rw [fork, hcopied]
    dsimp only [Option.bind_eq_bind, Option.bind_some]
    rw [hsupplied]
    rfl
  rw [hfork]
  refine start_shows ?_ (hholds.setMachine c _) hanswer (machine_setMachine hholds _) steps
  exact Sound.setMachine hsound c hanswer

end Store

/--
**A fork goes on like its original.**  In every store that calls can lead to from loaded
machines, a live pause may be answered, or the machine may be copied, the copy supplied
with the value that is wanted, and run.  Both come to the same stop or the same fault, and
leave the same memory, its cells and its extent, the same program counter and the same
relative base.  So it does through any number of pauses: a run that is forked at each of
them is seen to go where the run that is resumed goes.
-/
theorem fork_follows_resume {s : Store} (hs : Reachable Machine.Loaded s) {r : MachineRef}
    (hr : s.Holds r) (steps : Nat) :
    (∀ q, s.Live r q → ∀ value,
      (s.fork steps q value).map Stand.sight = (s.resume steps q value).map Stand.sight) ∧
    (∀ n inputs, (s.start steps r).bind (Stand.journey (Store.fork steps) n inputs) =
      (s.start steps r).bind (Stand.journey (Store.resume steps) n inputs)) := by
  have hsound := hs.sound Memory.tight_lasting fun _ => Machine.Loaded.tight
  refine ⟨fun q hlive value => ?_, fun n inputs => ?_⟩
  · have hself : s.machine r = { s.machine r with started := (s.machine r).started } := rfl
    rw [sights_of_rel (Store.fork_follows steps hsound hr hlive hself value),
      sights_of_rel (Store.resume_follows steps hsound hr hlive hself value)]
  · cases hstarted : (s.machine r).started with
    | true =>
        -- the run is refused, and there is nothing to go on from
        obtain ⟨fault, -, hrefused⟩ := Store.refuses_run hstarted
        have hstart : s.start steps r = some ⟨s, r, .error fault⟩ := by
          rw [Store.start, hrefused]
          rfl
        rw [hstart]
        cases n <;> rfl
    | false =>
        have hmachine : s.machine r = { s.machine r with started := false } := by rw [← hstarted]
        have hshows := Store.start_shows hsound hr (hsound.machine r) hmachine steps
        generalize s.start steps r = t, Machine.drive steps _ = x at hshows
        cases hshows with
        | none => rfl
        | some h =>
            exact (Follows.journey (Store.fork_follows steps) n inputs h).trans
              (Follows.journey (Store.resume_follows steps) n inputs h).symm

/-- A bounded program that puts out twice what it is given. -/
def doubler : Machine := { memory := .ofValues [3, 9, 102, 2, 9, 9, 4, 9, 99], bounded := true }

/-- The fork of the doubler puts out fourteen for seven, as the doubler does. -/
theorem doubler_fork_follows_resume :
    ∃ s, Reachable Machine.Loaded s ∧ s.Holds ⟨0⟩ ∧ s.Live ⟨0⟩ ⟨0⟩ ∧
      (s.fork 3 ⟨0⟩ 7).map Stand.sight = (s.resume 3 ⟨0⟩ 7).map Stand.sight ∧
      (s.resume 3 ⟨0⟩ 7).map (fun t => t.sight.outcome) = some (.ok (some (.output 14))) := by
  have hloaded : doubler.Loaded := Machine.loaded_ofValues (List.cons_ne_nil _ _) true
  have hrun : ∃ s, (Store.empty.addMachine doubler).2.perform 1 (.run ⟨0⟩) =
      some (.ok (.stopped ⟨0⟩), s) ∧ s.Holds ⟨0⟩ ∧ s.Live ⟨0⟩ ⟨0⟩ ∧
        (s.resume 3 ⟨0⟩ 7).map (fun t => t.sight.outcome) = some (.ok (some (.output 14))) :=
    ⟨_, rfl, ⟨by decide, by decide⟩, ⟨by decide, rfl, by decide, rfl⟩, rfl⟩
  obtain ⟨s, hrun, hholds, hlive, hdoubled⟩ := hrun
  have hreach : Reachable Machine.Loaded s := .call (.add .empty hloaded) hrun
  exact ⟨s, hreach, hholds, hlive, (fork_follows_resume hreach hholds 3).1 ⟨0⟩ hlive 7, hdoubled⟩

end Advent.Intcode
