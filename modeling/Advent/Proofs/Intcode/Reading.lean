/-
Parameters are read one at a time, and no further than they can be.

When a parameter can be read is said by `Legible`, and what it then comes to by `resolve`.
What is missing is the other case: `refusal` is the fault of a parameter that cannot be
read, and `param_of_not_legible` says that it is the one that is raised.  From this,
`params_of_first_illegible` follows a list of parameters up to the first that fails, which
decides the fault and how far the program counter has moved.

A word has a mode digit for every parameter, also for those that nobody asks for.
`readParams_sameButWord` compares two words that agree in the digits that are asked for: they
are read alike, and can be told apart only by a mode fault, which names the word.
-/
import Mathlib.Data.Nat.Digits.Lemmas
import Advent.Proofs.Intcode.Parameters
import Advent.Proofs.Intcode.Failure

namespace Advent.Intcode

/-! ### Mode digits that are no mode

A mode fault names the word, so a word that is too long to be written is one that cannot even be
complained about.  Both cases are one fault here, which is the one that is raised.
-/

namespace Word

/-- The word has more digits than can be written. -/
def Long (w : Word) : Prop := Numeral.maxDigits < (Nat.digits 10 w.raw).length

instance (w : Word) : Decidable w.Long := inferInstanceAs (Decidable (_ < _))

/-- The fault in the mode digit of parameter `j`, which names the word if it can be written. -/
def modeFault (w : Word) (j : Nat) : Fault :=
  if w.Long then .unwritable else .unknownMode (w.modeDigit j) j w.raw

theorem fits_raw_iff (w : Word) : Numeral.fits w.raw = true ↔ ¬ w.Long := by
  rw [Numeral.fits_iff, Int.natAbs_natCast]
  exact Nat.not_lt.symm

/-- A parameter whose mode digit is not zero lies within the word. -/
theorem lt_raw_of_modeDigit {w : Word} {j : Nat} (h : 0 < w.modeDigit j) : j < w.raw := by
  rw [modeDigit_natCast] at h
  have hpow : 10 ^ (j + 2) ≤ w.raw := by
    refine Nat.le_of_not_lt fun hlt => ?_
    rw [Nat.div_eq_of_lt hlt] at h
    omega
  have hlt : j + 2 < 10 ^ (j + 2) := Nat.lt_pow_self (by decide)
  omega

theorem reported_unknownMode {w : Word} {j : Nat} (h : 2 < w.modeDigit j) :
    (Fault.unknownMode (w.modeDigit j) j w.raw).reported = w.modeFault j := by
  have hall : (Fault.unknownMode (w.modeDigit j) j w.raw).integers.all Numeral.fits = true ↔
      Numeral.fits j = true ∧ Numeral.fits w.raw = true := by
    simp [Fault.integers]
  unfold Fault.reported modeFault
  by_cases hlong : w.Long
  · rw [if_pos hlong, if_neg]
    intro hfits
    exact (fits_raw_iff w).mp (hall.mp hfits).2 hlong
  · have hraw := (fits_raw_iff w).mpr hlong
    have hparam : Numeral.fits j = true := by
      have hlt := lt_raw_of_modeDigit (Nat.lt_trans Nat.two_pos h)
      simp only [Numeral.fits, Int.natAbs_natCast, decide_eq_true_eq] at hraw ⊢
      omega
    rw [if_neg hlong, if_pos (hall.mpr ⟨hparam, hraw⟩)]

theorem mode_of_le {w : Word} {j : Nat} (h : w.modeDigit j ≤ 2) :
    ∃ mode : Mode, w.mode j = .ok mode ∧ w.modeDigit j = mode.digit := by
  have hmode : ∃ mode : Mode, w.modeDigit j = mode.digit := by
    have hcases : w.modeDigit j = 0 ∨ w.modeDigit j = 1 ∨ w.modeDigit j = 2 := by omega
    rcases hcases with h | h | h
    · exact ⟨.position, h⟩
    · exact ⟨.immediate, h⟩
    · exact ⟨.relative, h⟩
  obtain ⟨mode, hdigit⟩ := hmode
  exact ⟨mode, (Machine.mode_ok_iff w j mode).mpr hdigit, hdigit⟩

theorem mode_of_lt {w : Word} {j : Nat} (h : 2 < w.modeDigit j) : w.mode j = .error (w.modeFault j) := by
  obtain ⟨d, hd⟩ : ∃ d, w.modeDigit j = d + 3 := ⟨w.modeDigit j - 3, by omega⟩
  have hnone : Mode.ofDigit? (w.modeDigit j) = none := by rw [hd]; rfl
  unfold mode
  rw [hnone]
  exact congrArg Except.error (reported_unknownMode h)

end Word

namespace Machine

/-! ### One parameter -/

/-- The fault of a parameter that cannot be read, its operand at the program counter: that of
its mode digit, of its use, or of the address. -/
def refusal (m : Machine) (w : Word) (j : Nat) (role : Role) : Fault :=
  if 2 < w.modeDigit j then w.modeFault j
  else
    match role with
    | .unknown letter => .unknownRole letter
    | .input => (Fault.negativeAddress (m.referent (w.modeDigit j))).reported
    | .output =>
      if w.modeDigit j = 1 then (Fault.immediateTarget m.pc).reported
      else (Fault.negativeAddress (m.referent (w.modeDigit j))).reported

theorem address_of_neg {a : Int} (h : a < 0) :
    address a = .error (Fault.negativeAddress a).reported :=
  if_pos h

theorem inputParam_refused {m : Machine} {mode : Mode} (h : ¬ m.Legible mode.digit .input) :
    m.inputParam mode = .error (Fault.negativeAddress (m.referent mode.digit)).reported := by
  have hneg : mode.digit ≠ 1 ∧ m.referent mode.digit < 0 := by
    by_contra hc
    refine h ⟨?_, Or.inl rfl, fun hd => ?_⟩
    · cases mode <;> decide
    · exact_mod_cast Int.not_lt.mp fun hlt => hc ⟨by exact_mod_cast hd, hlt⟩
  cases mode with
  | position => exact congrArg (Except.map m.memory.get) (address_of_neg hneg.2)
  | immediate => exact absurd rfl hneg.1
  | relative => exact congrArg (Except.map m.memory.get) (address_of_neg hneg.2)

theorem outputParam_refused {m : Machine} {mode : Mode} (h : ¬ m.Legible mode.digit .output)
    (hmode : mode.digit ≠ 1) :
    m.outputParam mode = .error (Fault.negativeAddress (m.referent mode.digit)).reported := by
  have hneg : m.referent mode.digit < 0 := by
    by_contra hc
    refine h ⟨?_, Or.inr ⟨rfl, by exact_mod_cast hmode⟩, fun _ => Int.not_lt.mp hc⟩
    cases mode <;> decide
  cases mode with
  | position => exact address_of_neg hneg
  | immediate => exact absurd rfl hmode
  | relative => exact address_of_neg hneg

/-- **A parameter that cannot be read is refused** for its mode digit first, then for its use,
then for the address. -/
theorem param_of_not_legible {m : Machine} {w : Word} {j : Nat} {role : Role}
    (h : ¬ m.Legible (w.modeDigit j) role) : m.param w j role = .error (m.refusal w j role) := by
  unfold param refusal
  by_cases hdigit : 2 < w.modeDigit j
  · rw [if_pos hdigit, Word.mode_of_lt hdigit]
    rfl
  · obtain ⟨mode, hmode, hd⟩ := Word.mode_of_le (Nat.le_of_not_lt hdigit)
    rw [if_neg hdigit, hmode, hd]
    rw [hd] at h
    cases role with
    | input => exact inputParam_refused h
    | unknown letter => rfl
    | output =>
        by_cases hone : mode.digit = 1
        · have himmediate : mode = .immediate := by cases mode <;> simp_all [Mode.digit]
          rw [if_pos hone, himmediate]
          rfl
        · rw [if_neg hone]
          exact outputParam_refused h hone

/-! ### A list of parameters -/

/-- **The first parameter that cannot be read ends the reading**, with its own fault and with
the values of those before it. -/
theorem params_of_first_illegible (w : Word) (roles : List Role) :
    ∀ (m : Machine) (i j : Nat) (hj : j < roles.length),
      (∀ (k : Nat) (hk : k < j), (m.advance k).Legible (w.modeDigit (i + k : Nat)) roles[k]) →
      ¬ (m.advance j).Legible (w.modeDigit (i + j : Nat)) roles[j] →
      (m.params w i roles).result = .error ((m.advance j).refusal w (i + j) roles[j]) ∧
        (m.params w i roles).values.length = j := by
  induction roles with
  | nil => intro m i j hj; exact absurd hj (Nat.not_lt_zero j)
  | cons role roles ih =>
      intro m i j hj hbefore hnot
      cases j with
      | zero =>
          have hparam : m.param w i role = .error (m.refusal w i role) :=
            param_of_not_legible (by simpa using hnot)
          rw [params, hparam]
          refine ⟨?_, rfl⟩
          simp [Reading.result]
      | succ j =>
          have hfirst : m.param w i role = .ok (m.resolve (w.modeDigit i) role) :=
            (param_ok_iff m w i role _).mpr ⟨by simpa using hbefore 0 (Nat.succ_pos j), rfl⟩
          -- parameter `k` of the rest is parameter `k + 1`, seen from one cell further on
          have hmode : ∀ k, i + (k + 1) = i + 1 + k := fun k => by omega
          have hmove : ∀ k : Nat, (m.advance 1).advance k = m.advance (k + 1 : Nat) := by
            intro k
            rw [advance_advance, Int.natCast_add, Int.add_comm]
            rfl
          obtain ⟨hresult, hlength⟩ := ih (m.advance 1) (i + 1) j (by simpa using hj)
            (fun k hk => by rw [hmove, ← hmode]; exact hbefore (k + 1) (by omega))
            (by rw [hmove, ← hmode]; exact hnot)
          refine ⟨?_, ?_⟩
          · rw [params_cons_result, hfirst, hresult, hmove, ← hmode]
            rfl
          · rw [params, hfirst]
            show (_ :: _).length = j + 1
            rw [List.length_cons, hlength]

/-- Either every parameter can be read, or there is a first that cannot. -/
theorem legible_or_first_illegible (m : Machine) (w : Word) (roles : List Role) :
    (∀ (j : Nat) (hj : j < roles.length), (m.advance j).Legible (w.modeDigit j) roles[j]) ∨
      ∃ (j : Nat) (hj : j < roles.length),
        (∀ (k : Nat) (hk : k < j), (m.advance k).Legible (w.modeDigit k) roles[k]) ∧
        ¬ (m.advance j).Legible (w.modeDigit j) roles[j] := by
  classical
  by_cases h : ∃ j, ∃ hj : j < roles.length, ¬ (m.advance j).Legible (w.modeDigit j) roles[j]
  · obtain ⟨hj, hnot⟩ := Nat.find_spec h
    refine Or.inr ⟨Nat.find h, hj, fun k hk => ?_, hnot⟩
    by_contra hc
    exact Nat.find_min h hk ⟨by omega, hc⟩
  · refine Or.inl fun j hj => ?_
    by_contra hc
    exact h ⟨j, hj, hc⟩

theorem readParams_ok_iff (m : Machine) (w : Word) (roles : List Role) (values : List Int)
    (after : Machine) :
    m.readParams w roles = (.ok values, after) ↔
      after = m.advance roles.length ∧ values.length = roles.length ∧
        ∀ (j : Nat) (hj : j < roles.length), (m.advance j).Legible (w.modeDigit j) roles[j] ∧
          values[j]? = some ((m.advance j).resolve (w.modeDigit j) roles[j]) := by
  have hread := params_ok_iff w roles m 0 values
  simp only [Nat.zero_add] at hread
  rw [← hread, readParams, Prod.mk.injEq, and_comm]
  refine and_congr_left fun hresult => ?_
  have hlength : (m.params w 0 roles).values.length = roles.length := by
    rw [params_length hresult]
    exact (hread.mp hresult).1
  rw [hlength]
  exact eq_comm

/-- Where every parameter can be read, the reading has all of them. -/
theorem readParams_of_legible {m : Machine} {w : Word} {roles : List Role}
    (h : ∀ (j : Nat) (hj : j < roles.length), (m.advance j).Legible (w.modeDigit j) roles[j]) :
    ∃ values, m.readParams w roles = (.ok values, m.advance roles.length) := by
  refine ⟨roles.mapIdx fun j role => (m.advance j).resolve (w.modeDigit j) role, ?_⟩
  refine (readParams_ok_iff _ _ _ _ _).mpr ⟨rfl, by simp, fun j hj => ⟨h j hj, ?_⟩⟩
  simp [hj]

/-- A reading that fails moves past the parameters before the first that cannot be read. -/
theorem readParams_of_first_illegible {m : Machine} {w : Word} {roles : List Role} {j : Nat}
    (hj : j < roles.length)
    (hbefore : ∀ (k : Nat) (hk : k < j), (m.advance k).Legible (w.modeDigit k) roles[k])
    (hnot : ¬ (m.advance j).Legible (w.modeDigit j) roles[j]) :
    m.readParams w roles = (.error ((m.advance j).refusal w j roles[j]), m.advance j) := by
  obtain ⟨hresult, hlength⟩ := params_of_first_illegible w roles m 0 j hj
    (by simpa only [Nat.zero_add] using hbefore) (by simpa only [Nat.zero_add] using hnot)
  rw [readParams, hresult, hlength, Nat.zero_add]

/-! ### Digits above those that are decoded

A word may have more digits than its operation has parameters.  Nobody looks at them, unless a mode
is refused and the word is named.
-/

/-- Two answers that are the same, or mode faults for the same parameter that differ in the
word they are about. -/
inductive SameButWord (w w' : Word) : Except Fault (List Int) → Except Fault (List Int) → Prop
  | same (answer : Except Fault (List Int)) : SameButWord w w' answer answer
  | mode (j : Nat) (h : 2 < w.modeDigit j) :
      SameButWord w w' (.error (w.modeFault j)) (.error (w'.modeFault j))

theorem refusal_sameButWord {w w' : Word} {j : Nat} (h : w'.modeDigit j = w.modeDigit j)
    (m : Machine) (role : Role) :
    SameButWord w w' (.error (m.refusal w j role)) (.error (m.refusal w' j role)) := by
  unfold refusal
  rw [h]
  by_cases hdigit : 2 < w.modeDigit j
  · rw [if_pos hdigit, if_pos hdigit]
    exact .mode j hdigit
  · rw [if_neg hdigit, if_neg hdigit]
    exact .same _

/-- **Digits that are not asked for do not matter**, but for the word in a mode fault. -/
theorem readParams_sameButWord {w w' : Word} {roles : List Role}
    (h : ∀ j < roles.length, w'.modeDigit j = w.modeDigit j) (m : Machine) :
    SameButWord w w' (m.readParams w roles).1 (m.readParams w' roles).1 ∧
      (m.readParams w' roles).2 = (m.readParams w roles).2 := by
  rcases legible_or_first_illegible m w roles with hall | ⟨j, hj, hbefore, hnot⟩
  · have hread : ∀ values, m.readParams w roles = (.ok values, m.advance roles.length) →
        m.readParams w' roles = (.ok values, m.advance roles.length) := by
      intro values hvalues
      obtain ⟨-, hlength, hparams⟩ := (readParams_ok_iff m w roles values _).mp hvalues
      refine (readParams_ok_iff m w' roles values _).mpr ⟨rfl, hlength, fun j hj => ?_⟩
      rw [h j hj]
      exact hparams j hj
    obtain ⟨values, hvalues⟩ := readParams_of_legible hall
    rw [hvalues, hread values hvalues]
    exact ⟨.same _, rfl⟩
  · have hread := readParams_of_first_illegible hj hbefore hnot
    have hread' : m.readParams w' roles =
        (.error ((m.advance j).refusal w' j roles[j]), m.advance j) := by
      refine readParams_of_first_illegible hj (fun k hk => ?_) ?_
      · rw [h k (by omega)]
        exact hbefore k hk
      · rw [h j hj]
        exact hnot
    rw [hread, hread']
    exact ⟨refusal_sameButWord (h j hj) _ _, rfl⟩

/--
**Parameters are read one after another, and no further than they can be.**  The reading
succeeds exactly when every parameter is legible where its operand stands; then it gives what
each of them comes to, and has moved past all of them.  Otherwise the first that is not
legible decides the fault, and only those before it were passed.  Memory and relative base
stay as they are, and a word with the same digits for these parameters is read alike, up to
the word that a mode fault is about.
-/
theorem parameters_are_read_one_after_another (m : Machine) (w : Word) (roles : List Role) :
    ((∃ values after, m.readParams w roles = (.ok values, after)) ↔
      ∀ (j : Nat) (hj : j < roles.length), (m.advance j).Legible (w.modeDigit j) roles[j]) ∧
    (∀ values after, m.readParams w roles = (.ok values, after) →
      after = m.advance roles.length ∧ values.length = roles.length ∧
        ∀ (j : Nat) (hj : j < roles.length),
          values[j]? = some ((m.advance j).resolve (w.modeDigit j) roles[j])) ∧
    (∀ (j : Nat) (hj : j < roles.length),
      (∀ (k : Nat) (hk : k < j), (m.advance k).Legible (w.modeDigit k) roles[k]) →
      ¬ (m.advance j).Legible (w.modeDigit j) roles[j] →
        m.readParams w roles = (.error ((m.advance j).refusal w j roles[j]), m.advance j)) ∧
    ((m.readParams w roles).2.memory = m.memory ∧
      (m.readParams w roles).2.relativeBase = m.relativeBase) ∧
    ∀ w' : Word, (∀ j < roles.length, w'.modeDigit j = w.modeDigit j) →
      SameButWord w w' (m.readParams w roles).1 (m.readParams w' roles).1 ∧
        (m.readParams w' roles).2 = (m.readParams w roles).2 := by
  refine ⟨⟨?_, ?_⟩, ?_, fun j hj hbefore hnot => readParams_of_first_illegible hj hbefore hnot,
    ⟨rfl, rfl⟩, fun w' h => readParams_sameButWord h m⟩
  · intro hread j hj
    obtain ⟨values, after, hread⟩ := hread
    obtain ⟨-, -, hparams⟩ := (readParams_ok_iff m w roles values after).mp hread
    exact (hparams j hj).1
  · intro hall
    obtain ⟨values, hvalues⟩ := readParams_of_legible hall
    exact ⟨values, _, hvalues⟩
  · intro values after hread
    obtain ⟨hafter, hlength, hparams⟩ := (readParams_ok_iff m w roles values after).mp hread
    exact ⟨hafter, hlength, fun j hj => (hparams j hj).2⟩

/-- The third digit of a word is no mode: two parameters are read, and a third is refused. -/
theorem third_digit_is_not_looked_at :
    let m : Machine := { memory := .ofValues [1, 3, 5, 40], relativeBase := 2 }
    let w : Word := ⟨31299⟩
    (∃ values after, m.readParams w [.input, .input] = (.ok values, after) ∧ after.pc = 2 ∧
      values[0]? = some 40 ∧ values[1]? = some 3) ∧
    m.readParams w [.input, .input, .output] = (.error (.unknownMode 3 2 31299), m.advance 2) := by
  intro m w
  have hfirst : (m.advance (0 : Nat)).Legible (w.modeDigit (0 : Nat)) .input :=
    ⟨by decide, Or.inl rfl, by decide⟩
  have hsecond : (m.advance (1 : Nat)).Legible (w.modeDigit (1 : Nat)) .input :=
    ⟨by decide, Or.inl rfl, by decide⟩
  have hthird : ¬ (m.advance (2 : Nat)).Legible (w.modeDigit (2 : Nat)) .output := by
    intro h
    exact absurd h.mode (by decide)
  refine ⟨?_, ?_⟩
  · obtain ⟨hiff, hvalues, -⟩ := parameters_are_read_one_after_another m w [.input, .input]
    obtain ⟨values, after, hread⟩ := hiff.mpr fun j hj => by
      rcases j with _ | _ | j
      · exact hfirst
      · exact hsecond
      · simp at hj
    obtain ⟨rfl, -, hresolve⟩ := hvalues values after hread
    exact ⟨values, _, hread, rfl, (hresolve 0 (by decide)).trans (by decide),
      (hresolve 1 (by decide)).trans (by decide)⟩
  · obtain ⟨-, -, hrefused, -⟩ := parameters_are_read_one_after_another m w [.input, .input, .output]
    refine (hrefused 2 (by decide) (fun k hk => ?_) hthird).trans ?_
    · rcases k with _ | _ | k
      · exact hfirst
      · exact hsecond
      · omega
    · have hshort : ¬ w.Long := by norm_num [Word.Long, Numeral.maxDigits, w]
      have hdigit : w.modeDigit (2 : Nat) = 3 := by decide
      have hrefusal : (m.advance (2 : Nat)).refusal w 2 .output = .unknownMode 3 2 31299 := by
        rw [refusal, if_pos (by rw [hdigit]; decide), Word.modeFault, if_neg hshort, hdigit]
        rfl
      exact congrArg (fun fault => (Except.error fault, m.advance 2)) hrefusal

end Machine

end Advent.Intcode
