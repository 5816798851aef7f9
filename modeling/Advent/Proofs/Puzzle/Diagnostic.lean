/-
A diagnostic program answers with its last output.

The diagnostic keeps one value to hand in and the latest output, where the general driver
keeps a list of values and all events.  `listen_eq_converse` says that the first two can be
read off the last two at every stop, so both drivers come to their end together, and
`verdict` is what the diagnostic makes of the end.  The boost program is driven by the
general driver to begin with.  So a keycode of the boost program is an answer of the
diagnostic as well.
-/
import Advent.Proofs.Intcode.Converse
import Advent.Puzzle.Boost
import Advent.Puzzle.Diagnostic

namespace Advent

open Intcode

/-- With some allowance, an activity comes to this result. -/
def Intcode.Trial.ComesTo {α : Type} (activity : Nat → Trial α) (result : Except Fault α) : Prop :=
  ∃ steps events, activity steps = some ⟨events, result⟩

/-- An activity that reads its result off one run comes to what it reads off the run's end, and
to nothing else. -/
theorem Intcode.Trial.comesTo_iff {α : Type} {activity : Nat → Trial α} {m after : Machine}
    {inputs outputs : List Int} {result : Except Fault Unit}
    {verdict : List Int → Except Fault Unit → Except Fault α}
    (hactivity : ∀ steps, activity steps =
      (m.runWithInputs steps inputs).map fun t => ⟨t.events, verdict t.outputs t.result⟩)
    (hrun : m.Answers inputs result outputs after) (r : Except Fault α) :
    ComesTo activity r ↔ r = verdict outputs result := by
  obtain ⟨steps, t, ht, rfl, rfl, -⟩ := hrun
  constructor
  · intro hcomes
    obtain ⟨steps', events, h⟩ := hcomes
    rw [hactivity] at h
    obtain ⟨t', ht', hreport⟩ := Option.map_eq_some_iff.mp h
    -- both allowances are enough for one run
    have hlonger := Machine.runWithInputs_mono ht (Nat.le_max_left steps steps')
    rw [Machine.runWithInputs_mono ht' (Nat.le_max_right steps steps')] at hlonger
    obtain rfl := Option.some.inj hlonger
    cases hreport
    rfl
  · rintro rfl
    exact ⟨steps, t.events, by rw [hactivity, ht]; rfl⟩

namespace Puzzle

/-! ### The diagnostic

The diagnostic drives its machine by itself and keeps less than the general driver.  What it keeps
can be read off what the general driver keeps, so at the end both have seen the same run.
-/

namespace Diagnostic

/-- What the diagnostic makes of a run with its one value. -/
def verdict (outputs : List Int) : Except Fault Unit → Except Fault Int
  | .ok () =>
    match outputs.getLast? with
    | some value => .ok value
    | none => .error .noOutput
  | .error (.inputExhausted _) => .error .inputConsumed
  | .error fault => .error fault

theorem verdict_error {fault : Fault} (h : fault.kind ≠ .inputExhausted) (outputs : List Int) :
    verdict outputs (.error fault) = .error fault := by
  cases fault with
  | inputExhausted supplied => exact absurd rfl h
  | _ => rfl

/-- The diagnostic's part of a transcript. -/
def report (t : Transcript) : Report Int := ⟨t.events, verdict t.outputs t.result⟩

theorem getLast?_outputs_halt (past : List Event) (m : Machine) :
    (Transcript.outputs ⟨(m.event .halt :: past).reverse, .ok (), m⟩).getLast? =
      (past.filterMap Event.output?).head? := by
  simp [Transcript.outputs, List.filterMap_cons, Machine.event, Event.output?]

/-- The pending value is all that the general driver has left, and the latest output is the
first among the events it keeps. -/
theorem listen_eq_converse (steps legs : Nat) :
    ∀ (m : Machine) (pending : Option Int) (supplied : Nat) (past : List Event),
      listen steps legs m pending (past.filterMap Event.output?).head? past =
        (m.converse steps legs pending.toList supplied past).map report := by
  induction legs with
  | zero => intro m pending supplied past; rfl
  | succ legs ih =>
      intro m pending supplied past
      unfold listen Machine.converse
      rcases hdrive : m.drive steps with _ | ⟨fault | stop, m'⟩
      · rfl
      -- want of input is no fault of the machine, so the verdict passes this one on
      · have hkind : fault.kind ≠ .inputExhausted := by
          intro h
          have hmem := Machine.drive_fault_kind hdrive
          simp [h, Machine.faultKinds, Machine.decodingKinds] at hmem
        simp only [Option.map_some, report, verdict_error hkind]
        rfl
      · cases stop with
        | output value => exact ih m' pending supplied (m'.event (.output value) :: past)
        | input destination =>
            cases pending with
            | none => rfl
            | some value =>
                exact ih _ none (supplied + 1) (m'.event (.input destination) :: past)
        | halt =>
            have hlast := getLast?_outputs_halt past m'
            simp only [Option.map_some, report, verdict, hlast]
            rfl

/-- The diagnostic of a machine with an input value comes to this result. -/
def Gives (m : Machine) (value : Int) (result : Except Fault Int) : Prop :=
  Trial.ComesTo (fun steps => compute steps m value) result

/-- The diagnostic runs a copy with one value and reads its answer off the transcript. -/
theorem compute_eq (steps : Nat) (m : Machine) (value : Int) :
    compute steps m value = (m.copy.runWithInputs steps [value]).map report :=
  listen_eq_converse steps steps { m.copy with started := true } (some value) 0 []

theorem gives_iff {m after : Machine} {value : Int} {outputs : List Int} {result : Except Fault Unit}
    (hrun : m.copy.Answers [value] result outputs after) (r : Except Fault Int) :
    Gives m value r ↔ r = verdict outputs result :=
  Trial.comesTo_iff (fun steps => compute_eq steps m value) hrun r

end Diagnostic

/-! ### The boost program -/

namespace Boost

/-- What the boost program makes of a run in its mode. -/
def verdict (outputs : List Int) : Except Fault Unit → Except Fault Int
  | .ok () => keycode outputs
  | .error fault => .error fault

def report (t : Transcript) : Report Int := ⟨t.events, verdict t.outputs t.result⟩

theorem boost_eq (steps : Nat) (m : Machine) (mode : Int) :
    boost steps m mode = (m.copy.runWithInputs steps [mode]).map report := by
  unfold boost
  cases m.copy.runWithInputs steps [mode] with
  | none => rfl
  | some t =>
      simp only [Option.map_some, report]
      cases t.result <;> rfl

/-- The boost program of a machine in a mode comes to this result. -/
def Gives (m : Machine) (mode : Int) (result : Except Fault Int) : Prop :=
  Trial.ComesTo (fun steps => boost steps m mode) result

theorem gives_iff {m after : Machine} {mode : Int} {outputs : List Int} {result : Except Fault Unit}
    (hrun : m.copy.Answers [mode] result outputs after) (r : Except Fault Int) :
    Gives m mode r ↔ r = verdict outputs result :=
  Trial.comesTo_iff (fun steps => boost_eq steps m mode) hrun r

theorem keycode_eq_ok_iff (outputs : List Int) (code : Int) :
    keycode outputs = .ok code ↔ outputs = [code] := by
  match outputs with
  | [] => simp [keycode, Fault.raise]
  | [first] => simp [keycode]
  | first :: second :: rest => simp [keycode, Fault.raise]

theorem verdict_eq_ok_iff (outputs : List Int) (result : Except Fault Unit) (code : Int) :
    verdict outputs result = .ok code ↔ result = .ok () ∧ outputs = [code] := by
  cases result with
  | error fault => simp [verdict]
  | ok => simp [verdict, keycode_eq_ok_iff]

end Boost

/-- **The diagnostic and the boost program are what the general driver makes of one value.**
When the run of a copy with that value alone halts, the diagnostic gives the last output, or
finds that there is none; when the run is short of input, the one value is consumed; and any
other fault of the run is the diagnostic's.  The boost program gives a keycode exactly when it
is the only output, and so the diagnostic gives every keycode that the boost program gives. -/
theorem diagnostic_and_boost_follow_run {m after : Machine} {value : Int} {outputs : List Int}
    {result : Except Fault Unit} (hrun : m.copy.Answers [value] result outputs after) :
    (∀ before last, result = .ok () → outputs = before ++ [last] →
      ∀ r, Diagnostic.Gives m value r ↔ r = .ok last) ∧
    (result = .ok () → outputs = [] →
      ∀ r, Diagnostic.Gives m value r ↔ r = .error .noOutput) ∧
    (∀ supplied, result = .error (.inputExhausted supplied) →
      ∀ r, Diagnostic.Gives m value r ↔ r = .error .inputConsumed) ∧
    (∀ fault, result = .error fault → fault.kind ≠ .inputExhausted →
      ∀ r, Diagnostic.Gives m value r ↔ r = .error fault) ∧
    (∀ code, Boost.Gives m value (.ok code) ↔ result = .ok () ∧ outputs = [code]) ∧
    (∀ code, Boost.Gives m value (.ok code) → Diagnostic.Gives m value (.ok code)) ∧
    (Fault.noOutput.kind = .puzzleInput ∧
      Fault.noOutput.message = "No output produced by computer") ∧
    (Fault.inputConsumed.kind = .puzzleInput ∧
      Fault.inputConsumed.message = "Input value already consumed") := by
  have hdiagnostic := Diagnostic.gives_iff hrun
  have hboost := fun code => (Boost.gives_iff hrun (.ok code)).trans
    (eq_comm.trans (Boost.verdict_eq_ok_iff outputs result code))
  refine ⟨?_, ?_, ?_, ?_, hboost, fun code hcode => ?_, ⟨rfl, rfl⟩, ⟨rfl, rfl⟩⟩
  · rintro before last rfl rfl r
    rw [hdiagnostic, Diagnostic.verdict, List.getLast?_concat]
  · rintro rfl rfl r
    exact hdiagnostic r
  · rintro supplied rfl r
    exact hdiagnostic r
  · rintro fault rfl hkind r
    rw [hdiagnostic, Diagnostic.verdict_error hkind]
  · obtain ⟨rfl, rfl⟩ := (hboost code).mp hcode
    exact (hdiagnostic _).mpr rfl

/-- A machine that was run before gives back its input and then the word at address zero: two
outputs, and so a diagnosis but no keycode. -/
theorem two_outputs_diagnosed :
    let m : Machine := { memory := .ofValues [3, 9, 4, 9, 4, 0, 99], pc := 0, started := true }
    (∃ after, m.copy.Answers [7] (.ok ()) [7, 3] after) ∧
      (∀ r, Diagnostic.Gives m 7 r ↔ r = .ok 3) ∧ ∀ code, ¬ Boost.Gives m 7 (.ok code) := by
  have hrun : ∃ after, Machine.Answers (Machine.copy
      { memory := .ofValues [3, 9, 4, 9, 4, 0, 99], pc := 0, started := true })
      [7] (.ok ()) [7, 3] after := ⟨_, 5, _, rfl, rfl, rfl, rfl⟩
  obtain ⟨after, h⟩ := hrun
  have hfollow := diagnostic_and_boost_follow_run h
  refine ⟨⟨after, h⟩, hfollow.1 [7] 3 rfl rfl, fun code hcode => ?_⟩
  have hsingle := ((hfollow.2.2.2.2.1 code).mp hcode).2
  cases hsingle

end Puzzle

end Advent
