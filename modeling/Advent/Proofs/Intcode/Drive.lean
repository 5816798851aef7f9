/-
A run is plain instructions and then one that stops or fails.

`drive` is given a number of instructions that it may carry out, and answers nothing
when they do not suffice.  `Passes` is the part of a run that the allowance is for: so
many instructions, none of which stops or fails.  `drive_eq_some_iff` says that an
answer is such a part, shorter than the allowance, and one instruction more.  That a
larger allowance changes no answer follows at once, and so does everything that is to
be said about runs of any length: by induction on `Passes`.

`converse` is given an allowance twice over, for the stops and for the instructions
between two of them, and `converse_mono` says that both may be raised.
-/
import Advent.Intcode.Run
import Advent.Proofs.Intcode.Faults

namespace Advent.Intcode.Machine

/-! ### From one stop to the next -/

/-- So many instructions, none of which stops or fails, lead from one machine to
another. -/
inductive Passes : Nat → Machine → Machine → Prop where
  | refl (m : Machine) : Passes 0 m m
  | step {n : Nat} {m m' last : Machine} (hexec : m.exec = (.ok none, m'))
      (hrest : Passes n m' last) : Passes (n + 1) m last

/-- **An answer of a run** is the outcome of the first instruction that stops or fails. -/
theorem drive_eq_some_iff (steps : Nat) :
    ∀ (m m' : Machine) (result : Except Fault Stop),
      m.drive steps = some (result, m') ↔
        ∃ n last, n < steps ∧ Passes n m last ∧ last.exec = (result.map some, m') := by
  induction steps with
  | zero => intro m m' result; simp [drive]
  | succ steps ih =>
      intro m m' result
      refine ⟨?_, ?_⟩
      · intro h
        rw [drive] at h
        -- only an instruction that passes leaves something for the rest of the allowance
        rcases hexec : m.exec with ⟨fault | _ | stop, m''⟩ <;> simp only [hexec] at h
        · cases h
          exact ⟨0, m, Nat.succ_pos _, .refl m, hexec⟩
        · obtain ⟨n, last, hlt, hpasses, hlast⟩ := (ih m'' m' result).mp h
          exact ⟨n + 1, last, Nat.succ_lt_succ hlt, .step hexec hpasses, hlast⟩
        · cases h
          exact ⟨0, m, Nat.succ_pos _, .refl m, hexec⟩
      · intro hright
        obtain ⟨n, last, hlt, hpasses, hlast⟩ := hright
        rw [drive]
        cases hpasses with
        | refl => cases result <;> simp [hlast, Except.map]
        | @step n _ m'' _ hexec hrest =>
            simp only [hexec]
            exact (ih m'' m' result).mpr ⟨n, last, Nat.lt_of_succ_lt_succ hlt, hrest, hlast⟩

/-- What some allowance suffices for. -/
theorem drive_iff_passes (m m' : Machine) (result : Except Fault Stop) :
    (∃ steps, m.drive steps = some (result, m')) ↔
      ∃ n last, Passes n m last ∧ last.exec = (result.map some, m') := by
  simp only [drive_eq_some_iff]
  refine ⟨?_, ?_⟩
  · intro hleft
    obtain ⟨steps, n, last, -, hlast⟩ := hleft
    exact ⟨n, last, hlast⟩
  · intro hright
    obtain ⟨n, last, hlast⟩ := hright
    exact ⟨n + 1, n, last, Nat.lt_succ_self n, hlast⟩

/-- A larger allowance changes no answer. -/
theorem drive_mono {m m' : Machine} {result : Except Fault Stop} {steps steps' : Nat}
    (h : m.drive steps = some (result, m')) (hle : steps ≤ steps') :
    m.drive steps' = some (result, m') := by
  obtain ⟨n, last, hlt, hrun⟩ := (drive_eq_some_iff steps m m' result).mp h
  exact (drive_eq_some_iff steps' m m' result).mpr ⟨n, last, Nat.lt_of_lt_of_le hlt hle, hrun⟩

theorem Passes.started {n : Nat} {m m' : Machine} (h : Passes n m m') :
    m'.started = m.started := by
  induction h with
  | refl m => rfl
  | @step n m m' last hexec _ ih =>
      have := exec_started m
      rw [hexec] at this
      rw [ih, this]

theorem Passes.mark {n : Nat} {m last : Machine} (h : Passes n m last) (started : Bool) :
    Passes n { m with started } { last with started } := by
  induction h with
  | refl m => exact .refl _
  | step hexec _ ih => exact .step (by rw [exec_mark, hexec]) ih

/-- Instructions that were carried out are as many less to carry out. -/
theorem Passes.drive_add {n : Nat} {m last : Machine} (h : Passes n m last) (steps : Nat) :
    m.drive (n + steps) = last.drive steps := by
  induction h with
  | refl m => rw [Nat.zero_add]
  | step hexec _ ih =>
      rw [Nat.succ_add, drive]
      simp only [hexec]
      exact ih

theorem drive_started {m m' : Machine} {result : Except Fault Stop} {steps : Nat}
    (h : m.drive steps = some (result, m')) : m'.started = m.started := by
  obtain ⟨n, last, -, hpasses, hexec⟩ := (drive_eq_some_iff steps m m' result).mp h
  have := exec_started last
  rw [hexec] at this
  rw [this, hpasses.started]

/-- A run carries the flag along. -/
theorem drive_mark (started : Bool) (steps : Nat) :
    ∀ m : Machine, { m with started }.drive steps =
      (m.drive steps).map fun x => (x.1, { x.2 with started }) := by
  induction steps with
  | zero => intro m; rfl
  | succ steps ih =>
      intro m
      rw [drive, drive, exec_mark]
      rcases m.exec with ⟨fault | _ | stop, m'⟩
      · rfl
      · exact ih m'
      · rfl

theorem drive_fault_kind {m m' : Machine} {fault : Fault} {steps : Nat}
    (h : m.drive steps = some (.error fault, m')) : fault.kind ∈ faultKinds := by
  obtain ⟨n, last, -, -, hexec⟩ := (drive_eq_some_iff steps m m' (.error fault)).mp h
  exact exec_fault_kind hexec

/-! ### From start to halt

Raising an allowance is a matter of induction on the legs, since each leg is a run that answers the
same under a larger allowance.
-/

/-- A larger allowance, of stops or of instructions, changes no transcript. -/
theorem converse_mono {steps steps' : Nat} (hsteps : steps ≤ steps') (legs : Nat) :
    ∀ {m : Machine} {pending : List Int} {supplied : Nat} {past : List Event} {t : Transcript}
      {legs' : Nat}, m.converse steps legs pending supplied past = some t → legs ≤ legs' →
      m.converse steps' legs' pending supplied past = some t := by
  induction legs with
  | zero => intro m pending supplied past t legs' h _; cases h
  | succ legs ih =>
      intro m pending supplied past t legs' h hle
      obtain ⟨k, rfl⟩ : ∃ k, legs' = k + 1 := ⟨legs' - 1, by omega⟩
      have hle' : legs ≤ k := Nat.le_of_succ_le_succ hle
      rw [converse] at h ⊢
      cases hdrive : m.drive steps with
      | none => simp [hdrive] at h
      | some r =>
          obtain ⟨result, m'⟩ := r
          rw [drive_mono hdrive hsteps]
          simp only [hdrive] at h
          rcases result with fault | stop
          · exact h
          · cases stop with
            | halt => exact h
            | output value => exact ih h hle'
            | input destination =>
                cases pending with
                | nil => exact h
                | cons value pending => exact ih h hle'

theorem runWithInputs_mono {m : Machine} {inputs : List Int} {t : Transcript} {steps steps' : Nat}
    (h : m.runWithInputs steps inputs = some t) (hle : steps ≤ steps') :
    m.runWithInputs steps' inputs = some t := by
  unfold runWithInputs at h ⊢
  split
  · simpa only [if_pos ‹_›] using h
  · rw [if_neg ‹_›] at h
    exact converse_mono hle steps h hle

end Advent.Intcode.Machine
