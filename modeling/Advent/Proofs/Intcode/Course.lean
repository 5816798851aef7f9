/-
What a call does to its machine, one moment after another.

A call that drives a machine does many things: it carries out instructions, and it writes
values that are handed in.  `Machine.moments` lists them in order, for a call of any kind, also
for one that fails, and also for one that is given up because the allowance does not suffice.
What a list of moments makes of a machine is its `Course`, and `deed_course` says that a call
leaves its machine where the course of its moments leads.

So what is to be shown of a machine at every moment of every call is shown of moments:
`Course.keeps` carries a property through a course that one instruction and one written value
keep.  And the memory at an instruction, or after the call, is the memory before the call with
the writes of all moments so far put, `Course.memory_at` and `Course.memory`.
-/
import Advent.Proofs.Intcode.Calls
import Advent.Proofs.Intcode.Drive
import Advent.Proofs.Intcode.Instruction

namespace Advent.Intcode

/-! ### Instructions write and ask at addresses that are not negative -/

/-- The address that an effect writes to, or asks a value for. -/
def Effect.place? : Effect → Option Int
  | .store a _ | .await a => some a
  | _ => none

namespace Machine

/-! ### What is written to

No address below zero is ever written by an instruction: it would have been refused as a parameter.
-/

theorem decode_place {m : Machine} {e : Effect} {n : Nat} (h : m.decode = (.ok e, n)) {a : Int}
    (ha : e.place? = some a) : 0 ≤ a := by
  obtain ⟨-, op, hcode, rfl, -, -⟩ := of_decode_ok h
  have hnonneg : ∀ j, j < op.roles.length → op.roles.getD j .input = .output →
      0 ≤ m.argument op j := by
    intro j hj hrole
    obtain ⟨-, hplace, hnonneg⟩ := of_decode_output h hcode hj hrole
    rw [hplace]
    exact hnonneg
  cases op with
  | compute f =>
      cases ha
      exact hnonneg 2 (Nat.lt_succ_self 2) rfl
  | input =>
      cases ha
      exact hnonneg 0 Nat.one_pos rfl
  | jump onNonzero =>
      rw [Operation.effect] at ha
      split at ha <;> cases ha
  | output | adjustBase | halt => cases ha

theorem exec_destination {m m' : Machine} {destination : Int}
    (h : m.exec = (.ok (some (.input destination)), m')) : 0 ≤ destination := by
  rw [exec_eq] at h
  rcases hd : m.decode with ⟨fault | e, n⟩
  · simp [hd] at h
  · simp only [hd] at h
    cases e with
    | await a =>
        cases h
        exact decode_place hd rfl
    | jump target =>
        simp only [apply] at h
        cases hjump : (m.advance n).jumpTarget target <;> simp [hjump] at h
    | store a value | emit value | pass | shift offset | halt => cases h

theorem drive_destination {m m' : Machine} {steps : Nat} {destination : Int}
    (h : m.drive steps = some (.ok (.input destination), m')) : 0 ≤ destination := by
  obtain ⟨n, last, -, -, hexec⟩ := (drive_eq_some_iff steps m m' (.ok (.input destination))).mp h
  exact exec_destination hexec

end Machine

/-! ### Moments

A machine's memory changes when an instruction is carried out and when a value is handed to it from
outside.  Nothing else counts as a moment, though a machine may be marked or moved in between.
-/

/-- One thing that is done to a machine: an instruction is carried out, or a value from outside
is written. -/
inductive Moment where
  /-- The instruction at the program counter of this machine is carried out. -/
  | instruction (m : Machine)
  | handed (address value : Int)

/-- What the instruction at the program counter writes, with the address. -/
def Machine.writes (m : Machine) : List (Int × Int) :=
  match m.decode.1 with
  | .ok (.store a value) => [(a, value)]
  | _ => []

/-- The addresses that are written at a moment, each with its value. -/
def Moment.writes : Moment → List (Int × Int)
  | .instruction m => m.writes
  | .handed a value => [(a, value)]

/-! ### The moments of a call -/

/-- What it takes to answer a stop with a value. -/
def Stop.moments (value : Int) : Stop → List Moment
  | .input destination => [.handed destination value]
  | .output _ | .halt => []

namespace Machine

/-- What is done on the way to the next stop. -/
def driveMoments : Nat → Machine → List Moment
  | 0, _ => []
  | steps + 1, m =>
    .instruction m ::
      match m.exec with
      | (.ok none, m') => m'.driveMoments steps
      | _ => []

/-- What is done when a machine is driven to its halt. -/
def converseMoments (steps : Nat) : Nat → Machine → List Int → List Moment
  | 0, _, _ => []
  | legs + 1, m, pending =>
    m.driveMoments steps ++
      match m.drive steps with
      | none | some (.error _, _) | some (.ok .halt, _) => []
      | some (.ok (.output _), m') => m'.converseMoments steps legs pending
      | some (.ok (.input destination), m') =>
        match pending with
        | [] => []
        | value :: pending =>
          .handed destination value ::
            (m'.answer (.input destination) value).converseMoments steps legs pending

/-- What a call does to the machine that it concerns, where `h` is the stop that it answers,
if it answers one. -/
def moments (steps : Nat) (h : Stopped) (m : Machine) : Call → List Moment
  | .step _ => if m.started then [] else [.instruction m]
  | .run _ => if m.started then [] else { m with started := true }.driveMoments steps
  | .resume _ value =>
    if h.refusal = none then h.stop.moments value ++ (m.answer h.stop value).driveMoments steps
    else []
  | .runWithInputs _ inputs =>
    if m.started then [] else { m with started := true }.converseMoments steps steps inputs
  | .put _ a value => if 0 ≤ a then [.handed a value] else []
  | .get .. | .copy _ | .readWord _ | .readInput .. | .readOutput .. | .readParams .. => []

/-! ### Courses -/

/-- These moments lead from one machine to the other.  Between two of them the machine may be
marked as started, and the program counter moves past what is read. -/
inductive Course : Machine → List Moment → Machine → Prop where
  | done (m : Machine) : Course m [] m
  | instruction {m last : Machine} {ms : List Moment} (hrest : Course m.exec.2 ms last) :
      Course m (.instruction m :: ms) last
  | handed {m last : Machine} {ms : List Moment} {a value : Int} (ha : 0 ≤ a)
      (hrest : Course { m with memory := m.memory.put a value } ms last) :
      Course m (.handed a value :: ms) last
  | marked {m last : Machine} {ms : List Moment} (started : Bool)
      (hrest : Course { m with started } ms last) : Course m ms last
  | read {m last : Machine} {ms : List Moment} (count : Nat)
      (hrest : Course (m.advance count) ms last) : Course m ms last

variable {m m' last : Machine} {ms ms' : List Moment}

theorem Course.append (h : Course m ms m') (h' : Course m' ms' last) : Course m (ms ++ ms') last := by
  induction h with
  | done m => exact h'
  | instruction _ ih => exact .instruction (ih h')
  | handed ha _ ih => exact .handed ha (ih h')
  | marked started _ ih => exact .marked started (ih h')
  | read count _ ih => exact .read count (ih h')

theorem writes_nonneg {m : Machine} {w : Int × Int} (hw : w ∈ m.writes) : 0 ≤ w.1 := by
  rw [writes] at hw
  rcases hd : m.decode with ⟨fault | e, n⟩ <;> rw [hd] at hw
  · cases hw
  · cases e with
    | store a value =>
        rw [List.mem_singleton.mp hw]
        exact decode_place hd rfl
    | await a | emit value | pass | jump target | shift offset | halt => cases hw

/-- An instruction changes the memory by what it writes, whether it succeeds or fails. -/
theorem exec_memory (m : Machine) : m.exec.2.memory = m.memory.putAll m.writes := by
  rw [exec_eq, writes]
  rcases m.decode with ⟨fault | e, n⟩
  · rfl
  · cases e with
    | jump target =>
        simp only [apply]
        cases (m.advance n).jumpTarget target <;> rfl
    | _ => rfl

/-- **The memory after a course** is the one before it with every write put, in order. -/
theorem Course.memory (h : Course m ms last) :
    last.memory = m.memory.putAll (ms.flatMap Moment.writes) := by
  induction h with
  | done m => rfl
  | @instruction m last ms _ ih =>
      rw [ih, exec_memory, List.flatMap_cons, ← Memory.putAll_append]
      rfl
  | handed ha _ ih => exact ih
  | marked started _ ih => exact ih
  | read count _ ih => exact ih

/-- The memory at an instruction of a course is the one before it with every write so far put. -/
theorem Course.memory_at (h : Course m ms last) {x : Machine} :
    ∀ {before rest : List Moment}, ms = before ++ .instruction x :: rest →
      x.memory = m.memory.putAll (before.flatMap Moment.writes) := by
  induction h with
  | done m => intro before rest h; simp at h
  | @instruction m last ms _ ih =>
      intro before rest h
      cases before with
      | nil =>
          cases h
          rfl
      | cons first before =>
          cases h
          rw [ih rfl, exec_memory, List.flatMap_cons, ← Memory.putAll_append]
          rfl
  | handed ha _ ih =>
      intro before rest h
      cases before with
      | nil => cases h
      | cons first before =>
          cases h
          exact ih rfl
  | marked started _ ih => exact ih
  | read count _ ih => exact ih

/-- What one moment of a machine preserves. -/
structure Kept (Q : Machine → Prop) : Prop where
  exec : ∀ {m : Machine}, Q m → Q m.exec.2
  handed : ∀ {m : Machine} {a : Int}, Q m → 0 ≤ a → ∀ value,
    Q { m with memory := m.memory.put a value }
  marked : ∀ {m : Machine}, Q m → ∀ started, Q { m with started }
  read : ∀ {m : Machine}, Q m → ∀ count : Nat, Q (m.advance count)

/-- **What one moment preserves** holds at every instruction of a course, and after it. -/
theorem Course.keeps {Q : Machine → Prop} (hQ : Kept Q) (h : Course m ms last) (hm : Q m) :
    Q last ∧ ∀ x, .instruction x ∈ ms → Q x := by
  induction h with
  | done m => exact ⟨hm, fun x hx => by cases hx⟩
  | @instruction m last ms _ ih =>
      obtain ⟨hlast, hall⟩ := ih (hQ.exec hm)
      refine ⟨hlast, fun x hx => ?_⟩
      rcases List.mem_cons.mp hx with hfirst | hrest
      · cases hfirst
        exact hm
      · exact hall x hrest
  | handed ha _ ih =>
      obtain ⟨hlast, hall⟩ := ih (hQ.handed hm ha _)
      refine ⟨hlast, fun x hx => ?_⟩
      rcases List.mem_cons.mp hx with hfirst | hrest
      · cases hfirst
      · exact hall x hrest
  | marked started _ ih => exact ih (hQ.marked hm started)
  | read count _ ih => exact ih (hQ.read hm count)

/-! ### Every call takes its course

For each call the machine that comes of it is the last one of the course, by induction on the
allowance where there is one.  The course is there even if the allowance runs out.
-/

theorem drive_course (steps : Nat) :
    ∀ m : Machine, ∃ last, Course m (m.driveMoments steps) last ∧
      ∀ x, m.drive steps = some x → x.2 = last := by
  induction steps with
  | zero => intro m; exact ⟨m, .done m, fun x h => by cases h⟩
  | succ steps ih =>
      intro m
      obtain ⟨last, hrest, hlast⟩ := ih m.exec.2
      rw [drive, driveMoments]
      rcases hexec : m.exec with ⟨fault | _ | stop, m'⟩ <;> rw [hexec] at hrest hlast
      · refine ⟨m', .instruction ?_, fun x h => by cases h; rfl⟩
        rw [hexec]
        exact .done m'
      · refine ⟨last, .instruction ?_, hlast⟩
        rw [hexec]
        exact hrest
      · refine ⟨m', .instruction ?_, fun x h => by cases h; rfl⟩
        rw [hexec]
        exact .done m'

/-- The answer to a request is handed in where the request said, and an output takes none. -/
theorem answer_course (m : Machine) {stop : Stop}
    (hstop : ∀ destination, stop = .input destination → 0 ≤ destination) (value : Int) :
    Course m (stop.moments value) (m.answer stop value) := by
  cases stop with
  | input destination => exact .handed (hstop destination rfl) (.done _)
  | output _ | halt => exact .done _

/-- A conversation takes the course of its runs, with the values handed in between. -/
theorem converse_course (steps legs : Nat) :
    ∀ (m : Machine) (pending : List Int) (supplied : Nat) (past : List Event),
      ∃ last, Course m (m.converseMoments steps legs pending) last ∧
        ∀ t, m.converse steps legs pending supplied past = some t → t.machine = last := by
  induction legs with
  | zero => intro m pending supplied past; exact ⟨m, .done m, fun t h => by cases h⟩
  | succ legs ih =>
      intro m pending supplied past
      obtain ⟨last, hdriven, hlast⟩ := drive_course steps m
      rw [converse, converseMoments]
      rcases hdrive : m.drive steps with _ | ⟨result, m'⟩
      · exact ⟨last, hdriven.append (.done last), fun t h => by cases h⟩
      · obtain rfl := hlast _ hdrive
        have hends : ∀ {x : Option Transcript}, (∀ t, x = some t → t.machine = m') →
            ∃ last, Course m (m.driveMoments steps ++ []) last ∧ ∀ t, x = some t → t.machine = last :=
          fun h => ⟨m', hdriven.append (.done m'), h⟩
        rcases result with fault | stop
        · exact hends fun t h => by cases h; rfl
        · cases stop with
          | halt => exact hends fun t h => by cases h; rfl
          | output value =>
              obtain ⟨last, hrest, hlast⟩ := ih m' pending supplied (m'.event (.output value) :: past)
              exact ⟨last, hdriven.append hrest, hlast⟩
          | input destination =>
              cases pending with
              | nil => exact hends fun t h => by cases h; rfl
              | cons value pending =>
                  obtain ⟨last, hrest, hlast⟩ := ih (m'.answer (.input destination) value) pending
                    (supplied + 1) (m'.event (.input destination) :: past)
                  exact ⟨last, hdriven.append (.handed (drive_destination hdrive) hrest), hlast⟩

theorem step_course (m : Machine) :
    Course m (if m.started then [] else [.instruction m]) m.step.2 := by
  unfold step
  cases m.started with
  | true => exact .done m
  | false =>
      refine .instruction ?_
      rcases m.exec with ⟨fault | _ | stop, m'⟩
      · exact .done m'
      · exact .done m'
      · exact .marked true (.done _)

theorem run_course (steps : Nat) (m : Machine) :
    ∃ last, Course m (if m.started then [] else { m with started := true }.driveMoments steps) last ∧
      ∀ x, m.run steps = some x → x.2 = last := by
  unfold run
  cases m.started with
  | true => exact ⟨m, .done m, fun x h => by cases h; rfl⟩
  | false =>
      obtain ⟨last, hrest, hlast⟩ := drive_course steps { m with started := true }
      exact ⟨last, .marked true hrest, hlast⟩

theorem runWithInputs_course (steps : Nat) (m : Machine) (inputs : List Int) :
    ∃ last, Course m
        (if m.started then [] else { m with started := true }.converseMoments steps steps inputs) last ∧
      ∀ t, m.runWithInputs steps inputs = some t → t.machine = last := by
  unfold runWithInputs
  cases m.started with
  | true => exact ⟨m, .done m, fun t h => by cases h; rfl⟩
  | false =>
      obtain ⟨last, hrest, hlast⟩ := converse_course steps steps { m with started := true } inputs 0 []
      exact ⟨last, .marked true hrest, hlast⟩

theorem put_course {a value : Int} (h : m.put a value = .ok m') :
    Course m (if 0 ≤ a then [.handed a value] else []) m' := by
  unfold put at h
  cases haddress : address a with
  | error fault => simp [haddress, bind, Except.bind] at h
  | ok b =>
      obtain ⟨hnonneg, rfl⟩ := (address_ok_iff a b).mp haddress
      simp only [haddress, bind, Except.bind, pure, Except.pure, Except.ok.injEq] at h
      rw [if_pos hnonneg, ← h]
      exact .handed hnonneg (.done _)

theorem put_refused_moments {a value : Int} {fault : Fault} (h : m.put a value = .error fault) :
    (if 0 ≤ a then [Moment.handed a value] else []) = [] := by
  refine if_neg fun hnonneg => ?_
  have haddress := (address_ok_iff a a).mpr ⟨hnonneg, rfl⟩
  simp [put, haddress, bind, Except.bind, pure, Except.pure] at h

theorem readInput_course (m : Machine) (mode : Mode) : Course m [] (m.readInput mode).2 := by
  unfold readInput
  cases m.inputParam mode with
  | ok value => exact .read 1 (.done _)
  | error fault => exact .done _

theorem readOutput_course (m : Machine) (mode : Mode) : Course m [] (m.readOutput mode).2 := by
  unfold readOutput
  cases m.outputParam mode with
  | ok value => exact .read 1 (.done _)
  | error fault => exact .done _

/-- **A call leaves its machine where the course of its moments leads.** -/
theorem deed_course (steps : Nat) {h : Stopped} (m : Machine) (c : Call)
    (hstop : ∀ destination, h.stop = .input destination → 0 ≤ destination) :
    ∃ last, Course m (m.moments steps h c) last ∧ ∀ d, m.deed steps h c = some d → d.after = last := by
  -- where the deed is known, it is the machine that it leaves
  have hdone : ∀ {ms : List Moment} {d : Deed}, Course m ms d.after →
      ∃ last, Course m ms last ∧ ∀ d', some d = some d' → d'.after = last :=
    fun hcourse => ⟨_, hcourse, fun d' hd => by cases hd; rfl⟩
  cases c with
  | step r => exact hdone (step_course m)
  | run r =>
      obtain ⟨last, hcourse, hlast⟩ := run_course steps m
      refine ⟨last, hcourse, fun d hd => ?_⟩
      obtain ⟨x, hrun, rfl⟩ := Option.map_eq_some_iff.mp hd
      exact hlast x hrun
  | resume q value =>
      rw [deed, moments]
      cases hrefusal : h.refusal with
      | some fault => exact hdone (.done m)
      | none =>
          obtain ⟨last, hcourse, hlast⟩ := drive_course steps (m.answer h.stop value)
          refine ⟨last, (answer_course m hstop value).append hcourse, fun d hd => ?_⟩
          obtain ⟨x, hdrive, rfl⟩ := Option.map_eq_some_iff.mp hd
          exact hlast x hdrive
  | runWithInputs r inputs =>
      obtain ⟨last, hcourse, hlast⟩ := runWithInputs_course steps m inputs
      refine ⟨last, hcourse, fun d hd => ?_⟩
      obtain ⟨t, hrun, rfl⟩ := Option.map_eq_some_iff.mp hd
      exact hlast t hrun
  | put r a value =>
      rw [deed, moments]
      cases hput : m.put a value with
      | error fault =>
          rw [put_refused_moments hput]
          exact hdone (.done m)
      | ok m' => exact hdone (put_course hput)
  | readInput r mode => exact hdone (readInput_course m mode)
  | readOutput r mode => exact hdone (readOutput_course m mode)
  | readWord r => exact hdone (.read 1 (.done _))
  | readParams r word roles =>
      rw [deed, moments]
      cases hword : Word.ofInt word with
      | error fault => exact hdone (.done m)
      | ok w => exact hdone (.read _ (.done _))
  | get r a | copy r => exact hdone (.done m)

end Machine

end Advent.Intcode
