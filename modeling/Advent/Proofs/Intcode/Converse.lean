/-
Input and output are atomic.

`runWithInputs` drives a machine that pauses at every input and output: it resumes the
machine, hands it a value that is written only then, and keeps the events.  A batch does
all of this within one turn.  `runWithInputs_iff_batch` says that the two cannot be told
apart: they end for the same reason, with the same outputs, in the same machine.

The simulation goes from stop to stop.  Plain instructions pass in step, and at a stop
one turn of the batch is the stop, the driver's answer and the late write.  What the
driver keeps beside the machine, the count of supplied values and the events so far, is
tied to the batch by `Logs`.
-/
import Advent.Proofs.Intcode.Batch

namespace Advent.Intcode

/-- The event is a request for input. -/
def Event.isRequest (e : Event) : Bool :=
  match e.stop with
  | .input _ => true
  | _ => false

/-- How often input was requested. -/
def Transcript.requests (t : Transcript) : Nat := t.events.countP Event.isRequest

/-- How many requests an ending leaves without an answer. -/
def Ending.unanswered : Ending → Nat
  | .starved => 1
  | .halted | .failed _ => 0

/-- What a batch that has ended says about the transcript of the driver. -/
structure Batch.Records (b : Batch) (e : Ending) (t : Transcript) : Prop where
  result : t.result = e.result b.read.length
  outputs : t.outputs = b.written
  machine : t.machine = b.machine
  requests : t.requests = b.read.length + e.unanswered

/-- What a batch under way says about the count of supplied values and the past events
that the driver keeps. -/
structure Batch.Logs (b : Batch) (supplied : Nat) (past : List Event) : Prop where
  supplied : b.read.length = supplied
  written : past.reverse.filterMap Event.output? = b.written
  requests : past.countP Event.isRequest = b.read.length

namespace Batch

theorem logs_start (m : Machine) (inputs : List Int) (started : Bool) :
    ((start m inputs).mark started).Logs 0 [] :=
  ⟨rfl, rfl, rfl⟩

theorem Logs.output {b : Batch} {supplied : Nat} {past : List Event} (h : b.Logs supplied past)
    (m : Machine) (value : Int) :
    Logs { b with machine := m, written := b.written ++ [value] } supplied
      (m.event (.output value) :: past) := by
  refine ⟨h.supplied, ?_, ?_⟩
  · simp [← h.written, Machine.event, Event.output?]
  · simpa [List.countP_cons, Machine.event, Event.isRequest] using h.requests

theorem Logs.input {b : Batch} {supplied : Nat} {past : List Event} (h : b.Logs supplied past)
    (m : Machine) (destination value : Int) (queue : List Int) :
    Logs ⟨m.answer (.input destination) value, b.read ++ [value], queue, b.written⟩ (supplied + 1)
      (m.event (.input destination) :: past) := by
  refine ⟨by simp [h.supplied], ?_, ?_⟩
  · simp [← h.written, List.filterMap_cons, Machine.event, Event.output?]
  · simpa [List.countP_cons, Machine.event, Event.isRequest] using h.requests

/-- The driver closes its books with the ending of the batch. -/
theorem Logs.records {b : Batch} {supplied : Nat} {past : List Event} (h : b.Logs supplied past)
    (m : Machine) :
    (∀ fault, Records { b with machine := m } (.failed fault) ⟨past.reverse, .error fault, m⟩) ∧
      Records { b with machine := m } .halted ⟨(m.event .halt :: past).reverse, .ok (), m⟩ ∧
      ∀ destination, Records { b with machine := m } .starved
        ⟨(m.event (.input destination) :: past).reverse, Fault.raise (.inputExhausted supplied), m⟩ := by
  have hwritten := h.written
  have hrequests := h.requests
  rw [List.filterMap_reverse] at hwritten
  refine ⟨fun fault => ⟨rfl, ?_, rfl, ?_⟩, ⟨rfl, ?_, rfl, ?_⟩, fun destination => ⟨?_, ?_, rfl, ?_⟩⟩
  · simpa [Transcript.outputs] using hwritten
  · simpa [Transcript.requests, Ending.unanswered] using hrequests
  · simpa [Transcript.outputs, List.filterMap_cons, Machine.event, Event.output?] using hwritten
  · simpa [Transcript.requests, List.countP_cons, Machine.event, Event.isRequest,
      Ending.unanswered] using hrequests
  · rw [← h.supplied]
    rfl
  · simpa [Transcript.outputs, List.filterMap_cons, Machine.event, Event.output?] using hwritten
  · simpa [Transcript.requests, List.countP_cons, Machine.event, Event.isRequest,
      Ending.unanswered] using hrequests

end Batch

namespace Machine

/-! ### The driver follows the batch

Let the driver come to an end.  On the way it meets a row of stops, and between two of them there
are plain instructions only, which the batch carries out as they are.  At a stop the batch takes the
one turn that stands for the stop and its answer.
-/

/-- What the driver comes to is what the batch comes to, by induction on the stops. -/
theorem converse_ends {steps : Nat} (legs : Nat) :
    ∀ {b : Batch} {supplied : Nat} {past : List Event} {t : Transcript},
      b.Logs supplied past → b.machine.converse steps legs b.queue supplied past = some t →
      ∃ e last, b.Ends e last ∧ last.Records e t := by
  induction legs with
  | zero => intro b supplied past t _ h; cases h
  | succ legs ih =>
      intro b supplied past t hlogs h
      rw [converse] at h
      cases hdrive : b.machine.drive steps with
      | none => simp [hdrive] at h
      | some r =>
          obtain ⟨result, m⟩ := r
          -- the stop is that of one instruction, which the batch reaches as well
          obtain ⟨n, before, -, hpasses, hexec⟩ := (drive_eq_some_iff _ _ _ _).mp hdrive
          have hreach : ∀ {e : Ending} {last : Batch},
              Batch.Ends { b with machine := before } e last → b.Ends e last :=
            Batch.Ends.of_passes hpasses
          have hlast : ∀ {e : Ending} {last : Batch},
              Batch.turn { b with machine := before } = (last, some e) → b.Ends e last :=
            fun hturn => hreach ⟨0, _, .refl _, hturn⟩
          simp only [hdrive] at h
          rcases result with fault | stop
          · cases h
            exact ⟨_, _, hlast (by simp only [Batch.turn_eq, hexec, Except.map]),
              (hlogs.records m).1 fault⟩
          · cases stop with
            | halt =>
                cases h
                exact ⟨_, _, hlast (by simp only [Batch.turn_eq, hexec, Except.map]),
                  (hlogs.records m).2.1⟩
            | output value =>
                obtain ⟨e, last, hends, hrecords⟩ := ih (hlogs.output m value) h
                refine ⟨e, last, hreach (Batch.Ends.step ?_ hends), hrecords⟩
                simp only [Batch.turn_eq, hexec, Except.map]
            | input destination =>
                rcases hqueue : b.queue with _ | ⟨value, queue⟩ <;> simp only [hqueue] at h
                · cases h
                  refine ⟨.starved, { b with machine := m }, hlast ?_,
                    (hlogs.records m).2.2 destination⟩
                  simp only [Batch.turn_eq, hexec, Except.map, hqueue]
                · obtain ⟨e, last, hends, hrecords⟩ :=
                    ih (hlogs.input m destination value queue) h
                  refine ⟨e, last, hreach (Batch.Ends.step ?_ hends), hrecords⟩
                  simp only [Batch.turn_eq, hexec, Except.map, hqueue]

/-! ### The batch follows the driver

Let the batch come to an end.  Its turns are taken one at a time, and each is an instruction that
the driver carries out: plain ones lengthen the leg that the driver is on, and the others begin
another leg.
-/

/-- A plain instruction before a conversation takes one instruction of the allowance. -/
theorem converse_plain {m m' : Machine} (hexec : m.exec = (.ok none, m')) {steps legs : Nat}
    {pending : List Int} {supplied : Nat} {past : List Event} {t : Transcript}
    (h : m'.converse steps legs pending supplied past = some t) :
    m.converse (steps + 1) legs pending supplied past = some t := by
  cases legs with
  | zero => cases h
  | succ legs =>
      have hdrive : m.drive (steps + 1) = m'.drive steps := by
        rw [drive]
        simp only [hexec]
      rw [converse] at h ⊢
      rw [hdrive]
      cases hm : m'.drive steps with
      | none => simp [hm] at h
      | some r =>
          obtain ⟨result, m''⟩ := r
          simp only [hm] at h
          rcases result with fault | stop
          · exact h
          · cases stop with
            | halt => exact h
            -- what follows the stop is given one instruction more than it was
            | output value => exact converse_mono (Nat.le_succ steps) legs h (Nat.le_refl _)
            | input destination =>
                cases pending with
                | nil => exact h
                | cons value pending => exact converse_mono (Nat.le_succ steps) legs h (Nat.le_refl _)

/-- Some allowance suffices for a batch that ends. -/
theorem converse_of_passes {n : Nat} {b before last : Batch} {e : Ending}
    (hpasses : Batch.Passes n b before) (hturn : before.turn = (last, some e)) :
    ∀ (supplied : Nat) (past : List Event),
      ∃ steps legs t, b.machine.converse steps legs b.queue supplied past = some t := by
  induction hpasses with
  | refl b =>
      intro supplied past
      obtain ⟨-, ⟨fault, -, hexec⟩ | ⟨-, hexec⟩ | ⟨-, hqueue, destination, hexec⟩⟩ :=
        Batch.of_turn_last hturn
      · exact ⟨1, 1, _, by simp only [converse, drive, hexec]; rfl⟩
      · exact ⟨1, 1, _, by simp only [converse, drive, hexec]; rfl⟩
      · exact ⟨1, 1, _, by simp only [converse, drive, hexec, hqueue]; rfl⟩
  | @step n b b' before hnext _ ih =>
      intro supplied past
      rcases Batch.of_turn_next hnext with ⟨m, hexec, rfl⟩ | ⟨m, value, hexec, rfl⟩ |
        ⟨m, destination, value, queue, hexec, hqueue, rfl⟩
      · obtain ⟨steps, legs, t, h⟩ := ih hturn supplied past
        exact ⟨steps + 1, legs, t, converse_plain hexec h⟩
      · obtain ⟨steps, legs, t, h⟩ := ih hturn supplied (m.event (.output value) :: past)
        refine ⟨steps + 1, legs + 1, t, ?_⟩
        simp only [converse, drive, hexec]
        exact converse_mono (Nat.le_succ steps) legs h (Nat.le_refl _)
      · obtain ⟨steps, legs, t, h⟩ := ih hturn (supplied + 1) (m.event (.input destination) :: past)
        refine ⟨steps + 1, legs + 1, t, ?_⟩
        simp only [converse, drive, hexec, hqueue]
        exact converse_mono (Nat.le_succ steps) legs h (Nat.le_refl _)

/-! ### The whole run -/

/-- With some allowance, driving the machine with these inputs comes to that result and
those outputs and leaves the machine so. -/
def Answers (m : Machine) (inputs : List Int) (result : Except Fault Unit) (outputs : List Int)
    (after : Machine) : Prop :=
  ∃ steps t, m.runWithInputs steps inputs = some t ∧
    t.result = result ∧ t.outputs = outputs ∧ t.machine = after

theorem runWithInputs_fresh {m : Machine} (hfresh : m.started = false) (steps : Nat)
    (inputs : List Int) :
    m.runWithInputs steps inputs =
      ((Batch.start m inputs).mark true).machine.converse steps steps inputs 0 [] := by
  simp only [runWithInputs, hfresh, Bool.false_eq_true, if_false]
  rfl

/-- A transcript records the ending of the batch that starts on the same machine. -/
theorem runWithInputs_records {m : Machine} (hfresh : m.started = false) {steps : Nat}
    {inputs : List Int} {t : Transcript} (h : m.runWithInputs steps inputs = some t) :
    ∃ e last, (Batch.start m inputs).Ends e last ∧ (last.mark true).Records e t := by
  rw [runWithInputs_fresh hfresh] at h
  obtain ⟨e, last, hends, hrecords⟩ := converse_ends steps (Batch.logs_start m inputs true) h
  have hback := hends.mark false
  have hstart : ((Batch.start m inputs).mark true).mark false = Batch.start m inputs := by
    simp [Batch.mark, Batch.start, ← hfresh]
  rw [hstart] at hback
  have hagain := (hback.mark true).unique hends
  exact ⟨e, _, hback, hagain.2 ▸ hrecords⟩

/-- An answer of the machine is an ending of the batch, with the same outputs. -/
theorem answers_iff {m : Machine} (hfresh : m.started = false) (inputs : List Int)
    (result : Except Fault Unit) (outputs : List Int) (after : Machine) :
    m.Answers inputs result outputs after ↔
      ∃ e b, (Batch.start m inputs).Ends e b ∧ result = e.result b.read.length ∧
        b.written = outputs ∧ { b.machine with started := true } = after := by
  refine ⟨?_, ?_⟩
  · intro hanswers
    obtain ⟨steps, t, h, rfl, rfl, rfl⟩ := hanswers
    obtain ⟨e, b, hends, hrecords⟩ := runWithInputs_records hfresh h
    exact ⟨e, b, hends, hrecords.result, hrecords.outputs.symm, hrecords.machine.symm⟩
  · intro hbatch
    obtain ⟨e, b, hends, rfl, rfl, rfl⟩ := hbatch
    obtain ⟨n, before, hpasses, hturn⟩ := hends.mark true
    obtain ⟨steps, legs, t, h⟩ := converse_of_passes hpasses hturn 0 []
    have hrun : m.runWithInputs (max steps legs) inputs = some t := by
      rw [runWithInputs_fresh hfresh]
      exact converse_mono (Nat.le_max_left _ _) legs h (Nat.le_max_right _ _)
    obtain ⟨e', b', hends', hrecords⟩ := runWithInputs_records hfresh hrun
    obtain ⟨rfl, rfl⟩ := hends.unique hends'
    exact ⟨_, t, hrun, hrecords.result, hrecords.outputs, hrecords.machine⟩

theorem answers_ok_iff {m : Machine} (hfresh : m.started = false) (inputs outputs : List Int)
    (after : Machine) :
    m.Answers inputs (.ok ()) outputs after ↔
      ∃ b, (Batch.start m inputs).Ends .halted b ∧ b.written = outputs ∧
        { b.machine with started := true } = after := by
  rw [answers_iff hfresh]
  refine ⟨?_, ?_⟩
  · intro hbatch
    obtain ⟨e, b, hends, hresult, hrest⟩ := hbatch
    cases e with
    | halted => exact ⟨b, hends, hrest⟩
    | starved => cases hresult
    | failed fault => cases hresult
  · intro hbatch
    obtain ⟨b, hends, hrest⟩ := hbatch
    exact ⟨.halted, b, hends, rfl, hrest⟩

/-- A run is short of input when the batch is starved, after all inputs. -/
theorem answers_exhausted_iff {m : Machine} (hfresh : m.started = false)
    (inputs outputs : List Int) (supplied : Nat) (after : Machine) :
    m.Answers inputs (.error (.inputExhausted supplied)) outputs after ↔
      supplied = inputs.length ∧ ∃ b, (Batch.start m inputs).Ends .starved b ∧
        b.written = outputs ∧ { b.machine with started := true } = after := by
  have hread : ∀ b, (Batch.start m inputs).Ends .starved b → b.read = inputs := by
    intro b hends
    have := hends.inputs
    rw [hends.queue_of_starved, List.append_nil] at this
    exact this
  rw [answers_iff hfresh]
  refine ⟨?_, ?_⟩
  · intro hbatch
    obtain ⟨e, b, hends, hresult, hrest⟩ := hbatch
    cases e with
    | halted => cases hresult
    | starved =>
        cases hresult
        exact ⟨by rw [hread b hends], b, hends, hrest⟩
    | failed fault =>
        -- no instruction fails for want of input
        cases hresult
        exact absurd hends.fault_kind (by simp [Fault.kind, faultKinds, decodingKinds])
  · intro hbatch
    obtain ⟨rfl, b, hends, hrest⟩ := hbatch
    refine ⟨.starved, b, hends, ?_, hrest⟩
    rw [hread b hends]
    rfl

theorem answers_failed_iff {m : Machine} (hfresh : m.started = false) (inputs outputs : List Int)
    {fault : Fault} (hkind : fault.kind ≠ .inputExhausted) (after : Machine) :
    m.Answers inputs (.error fault) outputs after ↔
      ∃ b, (Batch.start m inputs).Ends (.failed fault) b ∧ b.written = outputs ∧
        { b.machine with started := true } = after := by
  rw [answers_iff hfresh]
  refine ⟨?_, ?_⟩
  · intro hbatch
    obtain ⟨e, b, hends, hresult, hrest⟩ := hbatch
    cases e with
    | halted => cases hresult
    | starved =>
        cases hresult
        exact absurd rfl hkind
    | failed fault' =>
        cases hresult
        exact ⟨b, hends, hrest⟩
  · intro hbatch
    obtain ⟨b, hends, hrest⟩ := hbatch
    exact ⟨.failed fault, b, hends, rfl, hrest⟩

/--
**Driving a machine that pauses is running a batch.**  A fresh machine returns, runs out
of input or fails exactly when the batch that starts on it halts, is starved or fails in
the same way.  The outputs are those that the batch has written, and memory, program
counter and relative base are those of the batch.  A starved batch has read every input,
which is what the message names.  In every case the inputs are read in order, each for
one request.
-/
theorem runWithInputs_iff_batch (m : Machine) (hfresh : m.started = false) (inputs : List Int) :
    (∀ outputs after, m.Answers inputs (.ok ()) outputs after ↔
      ∃ b, (Batch.start m inputs).Ends .halted b ∧ b.written = outputs ∧
        { b.machine with started := true } = after) ∧
    (∀ supplied outputs after, m.Answers inputs (.error (.inputExhausted supplied)) outputs after ↔
      supplied = inputs.length ∧ ∃ b, (Batch.start m inputs).Ends .starved b ∧
        b.written = outputs ∧ { b.machine with started := true } = after) ∧
    (Fault.inputExhausted inputs.length).message =
      "Program requested input #" ++ toString (inputs.length + 1) ++ " but only " ++
        toString inputs.length ++ " were supplied" ∧
    (∀ fault outputs after, fault.kind ≠ .inputExhausted →
      (m.Answers inputs (.error fault) outputs after ↔
        ∃ b, (Batch.start m inputs).Ends (.failed fault) b ∧ b.written = outputs ∧
          { b.machine with started := true } = after)) ∧
    (∀ steps t, m.runWithInputs steps inputs = some t →
      ∃ e b, (Batch.start m inputs).Ends e b ∧ b.read ++ b.queue = inputs ∧
        t.requests = b.read.length + e.unanswered) := by
  refine ⟨answers_ok_iff hfresh inputs, fun supplied outputs after => ?_, rfl,
    fun fault outputs after hkind => ?_, fun steps t h => ?_⟩
  · exact answers_exhausted_iff hfresh inputs outputs supplied after
  · exact answers_failed_iff hfresh inputs outputs hkind after
  · obtain ⟨e, b, hends, hrecords⟩ := runWithInputs_records hfresh h
    exact ⟨e, b, hends, hends.inputs, hrecords.requests⟩

/-- A machine that gives back what it is given, and asks once more. -/
theorem runWithInputs_echo_starved :
    let m : Machine := { memory := .ofValues [3, 9, 4, 9, 1105, 1, 0] }
    m.started = false ∧ m.Answers [7, -8] (.error (.inputExhausted 2)) [7, -8]
        { memory := ((m.memory.put 9 7).put 9 (-8)), pc := 2, started := true } ∧
      ∃ b, (Batch.start m [7, -8]).Ends .starved b ∧ b.written = [7, -8] := by
  have h := runWithInputs_iff_batch { memory := .ofValues [3, 9, 4, 9, 1105, 1, 0] } rfl [7, -8]
  have hrun : Answers { memory := .ofValues [3, 9, 4, 9, 1105, 1, 0] } [7, -8]
      (.error (.inputExhausted 2)) [7, -8]
      { memory := (((Memory.ofValues [3, 9, 4, 9, 1105, 1, 0]).put 9 7).put 9 (-8)), pc := 2,
        started := true } := ⟨5, _, rfl, rfl, rfl, rfl⟩
  obtain ⟨-, b, hends, hwritten, -⟩ := (h.2.1 2 _ _).mp hrun
  exact ⟨rfl, hrun, b, hends, hwritten⟩

end Machine

end Advent.Intcode
