/-
When parameters can be read, and what they come to.

The machine reads a parameter by decoding a mode, looking at the use and checking an
address, each step with an error of its own.  Here the same is said without steps:
`Legible` is the condition under which a parameter with a given mode digit can be read,
and `resolve` is the value or address it then comes to.  `param_ok_iff` ties the two to
one parameter and `params_ok_iff` to a list of them, by induction on the list of uses:
parameter `j` sees the machine advanced by `j`, because only the program counter moves
between two parameters.
-/
import Mathlib.Algebra.Ring.Nat
import Mathlib.Algebra.Ring.Int.Defs
import Advent.Intcode.Machine

namespace Advent.Intcode

/-- Counted from zero, the parameters' digits are those above the last two. -/
theorem Word.modeDigit_natCast (w : Word) (i : Nat) :
    w.modeDigit i = w.raw / 10 ^ (i + 2) % 10 := by
  unfold Word.modeDigit
  rw [show ((i : Int) + 2).toNat = i + 2 by omega]
  rfl

namespace Machine

@[simp] theorem advance_memory (m : Machine) (n : Int) : (m.advance n).memory = m.memory := rfl
@[simp] theorem advance_bounded (m : Machine) (n : Int) : (m.advance n).bounded = m.bounded := rfl
@[simp] theorem advance_pc (m : Machine) (n : Int) : (m.advance n).pc = m.pc + n := rfl
@[simp] theorem advance_base (m : Machine) (n : Int) :
    (m.advance n).relativeBase = m.relativeBase := rfl
@[simp] theorem advance_started (m : Machine) (n : Int) : (m.advance n).started = m.started := rfl

@[simp] theorem advance_advance (m : Machine) (a b : Int) :
    (m.advance a).advance b = m.advance (a + b) := by
  simp [advance, Int.add_assoc]

@[simp] theorem advance_zero (m : Machine) : m.advance 0 = m := by
  simp [advance]

/-! ### One parameter

Decoding the mode, looking at the use and checking the address are three steps that can each fail.
`Legible` puts the three conditions side by side, and `resolve` says where they lead.
-/

/-- The address that the operand at the program counter refers to when its mode digit is
not 1: the operand itself, or, with digit 2, the operand counted from the relative base. -/
def referent (m : Machine) (digit : Int) : Int :=
  if digit = 2 then m.relativeBase + m.memory.get m.pc else m.memory.get m.pc

/-- What a parameter comes to: an address when it is written to, and a value otherwise. -/
def resolve (m : Machine) (digit : Int) : Role → Int
  | .output => m.referent digit
  | _ => if digit = 1 then m.memory.get m.pc else m.memory.get (m.referent digit)

/-- A parameter with this mode digit can be read for this use. -/
structure Legible (m : Machine) (digit : Int) (role : Role) : Prop where
  mode : digit = 0 ∨ digit = 1 ∨ digit = 2
  use : role = .input ∨ role = .output ∧ digit ≠ 1
  address : digit ≠ 1 → 0 ≤ m.referent digit

theorem address_ok_iff (a v : Int) : address a = .ok v ↔ 0 ≤ a ∧ v = a := by
  unfold address
  split
  · simp [Fault.raise]
    omega
  · simp [eq_comm]
    omega

theorem mode_ok_iff (w : Word) (i : Int) (mode : Mode) :
    w.mode i = .ok mode ↔ w.modeDigit i = mode.digit := by
  unfold Word.mode
  rcases hd : w.modeDigit i with _ | _ | _ | d <;>
    cases mode <;> simp [Mode.ofDigit?, Mode.digit, Fault.raise]

theorem inputParam_ok_iff (m : Machine) (mode : Mode) (v : Int) :
    m.inputParam mode = .ok v ↔
      m.Legible mode.digit .input ∧ v = m.resolve mode.digit .input := by
  have hmap : ∀ a, (address a).map m.memory.get = .ok v ↔ 0 ≤ a ∧ v = m.memory.get a := by
    intro a
    unfold address
    split
    · simp [Fault.raise, Except.map]
      omega
    · simp [Except.map, eq_comm]
      omega
  cases mode with
  | position =>
      simp only [inputParam, hmap, Mode.digit]
      refine ⟨fun h => ⟨⟨by decide, Or.inl rfl, fun _ => h.1⟩, h.2⟩, fun h => ⟨?_, h.2⟩⟩
      exact h.1.address (by decide)
  | immediate =>
      simp only [inputParam, Mode.digit]
      refine ⟨?_, ?_⟩
      · rintro h
        exact ⟨⟨by decide, Or.inl rfl, fun hc => absurd rfl hc⟩, (Except.ok.inj h).symm⟩
      · intro hright
        obtain ⟨-, rfl⟩ := hright
        rfl
  | relative =>
      simp only [inputParam, hmap, Mode.digit]
      refine ⟨fun h => ⟨⟨by decide, Or.inl rfl, fun _ => h.1⟩, h.2⟩, fun h => ⟨?_, h.2⟩⟩
      exact h.1.address (by decide)

theorem outputParam_ok_iff (m : Machine) (mode : Mode) (v : Int) :
    m.outputParam mode = .ok v ↔
      m.Legible mode.digit .output ∧ v = m.resolve mode.digit .output := by
  cases mode with
  | position =>
      simp only [outputParam, address_ok_iff, Mode.digit]
      refine ⟨fun h => ⟨⟨by decide, Or.inr ⟨rfl, by decide⟩, fun _ => h.1⟩, h.2⟩,
        fun h => ⟨?_, h.2⟩⟩
      exact h.1.address (by decide)
  | immediate =>
      simp only [outputParam, Mode.digit, Fault.raise]
      refine ⟨fun h => (by cases h), fun h => ?_⟩
      rcases h.1.use with hc | ⟨-, hc⟩
      · cases hc
      · exact absurd rfl hc
  | relative =>
      simp only [outputParam, address_ok_iff, Mode.digit]
      refine ⟨fun h => ⟨⟨by decide, Or.inr ⟨rfl, by decide⟩, fun _ => h.1⟩, h.2⟩,
        fun h => ⟨?_, h.2⟩⟩
      exact h.1.address (by decide)

/-- **One parameter is read exactly when it is legible.** -/
theorem param_ok_iff (m : Machine) (w : Word) (i : Nat) (role : Role) (v : Int) :
    m.param w i role = .ok v ↔
      m.Legible (w.modeDigit i) role ∧ v = m.resolve (w.modeDigit i) role := by
  cases hmode : w.mode i with
  | error fault =>
      have hnone : ∀ mode : Mode, w.modeDigit i ≠ mode.digit := by
        intro mode hd
        rw [(mode_ok_iff w i mode).mpr hd] at hmode
        cases hmode
      have h0 := hnone .position
      have h1 := hnone .immediate
      have h2 := hnone .relative
      simp only [Mode.digit] at h0 h1 h2
      simp only [param, hmode, bind, Except.bind]
      refine ⟨fun h => (by cases h), fun h => ?_⟩
      have := h.1.mode
      omega
  | ok mode =>
      rw [(mode_ok_iff w i mode).mp hmode]
      simp only [param, hmode, bind, Except.bind]
      cases role with
      | input => exact inputParam_ok_iff m mode v
      | output => exact outputParam_ok_iff m mode v
      | unknown letter =>
          refine ⟨fun h => (by cases h), fun h => ?_⟩
          rcases h.1.use with hc | ⟨hc, -⟩ <;> cases hc

/-! ### A list of parameters -/

theorem params_cons_result (m : Machine) (w : Word) (i : Nat) (role : Role) (roles : List Role) :
    (m.params w i (role :: roles)).result = (do
      let v ← m.param w i role
      let vs ← ((m.advance 1).params w (i + 1) roles).result
      return v :: vs) := by
  rw [params]
  cases hp : m.param w i role with
  | error fault => rfl
  | ok v =>
      cases hr : ((m.advance 1).params w (i + 1) roles).fault? <;>
        simp [Reading.result, hr, bind, Except.bind, pure, Except.pure]

/-- Parameters are read from the first on, each with the machine one cell further. -/
theorem params_cons_ok_iff (m : Machine) (w : Word) (i : Nat) (role : Role) (roles : List Role)
    (vs : List Int) :
    (m.params w i (role :: roles)).result = .ok vs ↔
      ∃ v rest, vs = v :: rest ∧ m.param w i role = .ok v ∧
        ((m.advance 1).params w (i + 1) roles).result = .ok rest := by
  rw [params_cons_result]
  cases hv : m.param w i role with
  | error fault => simp [bind, Except.bind]
  | ok v =>
      cases hr : ((m.advance 1).params w (i + 1) roles).result with
      | error fault => simp [bind, Except.bind]
      | ok rest => simp [bind, Except.bind, pure, Except.pure, eq_comm]

/-- A reading that succeeds read one value for each use. -/
theorem params_length {m : Machine} {w : Word} {roles : List Role} :
    ∀ {i : Nat} {vs : List Int}, (m.params w i roles).result = .ok vs →
      (m.params w i roles).values = vs := by
  intro i vs h
  unfold Reading.result at h
  split at h
  · cases h
  · exact Except.ok.inj h

/-- **Parameters are read exactly when each of them is legible** where the program
counter stands when its turn comes. -/
theorem params_ok_iff (w : Word) (roles : List Role) :
    ∀ (m : Machine) (i : Nat) (vs : List Int),
      (m.params w i roles).result = .ok vs ↔
        vs.length = roles.length ∧
        ∀ (j : Nat) (hj : j < roles.length),
          (m.advance j).Legible (w.modeDigit (i + j : Nat)) roles[j] ∧
          vs[j]? = some ((m.advance j).resolve (w.modeDigit (i + j : Nat)) roles[j]) := by
  induction roles with
  | nil =>
      intro m i vs
      simp only [params, Reading.result]
      refine ⟨?_, ?_⟩
      · intro h
        cases h
        exact ⟨rfl, fun j hj => absurd hj (Nat.not_lt_zero j)⟩
      · intro hright
        obtain ⟨hlen, -⟩ := hright
        rw [List.length_eq_zero_iff.mp hlen]
  | cons role roles ih =>
      intro m i vs
      rw [params_cons_ok_iff]
      -- parameter `j` of the rest is parameter `j + 1`, seen from one cell further on
      have hmode : ∀ j, i + (j + 1) = i + 1 + j := fun j => by omega
      refine ⟨?_, ?_⟩
      · intro h
        obtain ⟨v, rest, rfl, hv, hr⟩ := h
        obtain ⟨hlen, hall⟩ := (ih (m.advance 1) (i + 1) rest).mp hr
        refine ⟨by simp [hlen], fun j hj => ?_⟩
        cases j with
        | zero => simpa using (param_ok_iff m w i role v).mp hv
        | succ j =>
            have := hall j (by simpa using hj)
            rw [hmode]
            simpa [Int.add_comm] using this
      · intro hright
        obtain ⟨hlen, hall⟩ := hright
        cases vs with
        | nil => simp at hlen
        | cons v rest =>
            refine ⟨v, rest, rfl, (param_ok_iff m w i role v).mpr ?_,
              (ih (m.advance 1) (i + 1) rest).mpr ⟨by simpa using hlen, fun j hj => ?_⟩⟩
            · have := hall 0 (by simp)
              simpa using this
            · have := hall (j + 1) (by simpa using hj)
              rw [hmode] at this
              simpa [Int.add_comm] using this

end Machine

end Advent.Intcode
