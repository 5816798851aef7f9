/-
A failed instruction is not half done.

The checks that an instruction has to pass are listed once more, in the order in which
they are made: the word, its code, for each parameter its mode digit, its use and its
address, and then the target of a jump.  `firstViolated` looks through this list, and
`exec_error_iff` says that an instruction fails exactly when it finds a check, with the
fault of that check, and that nothing but the program counter has moved: past the word
and past the parameters that come before the check.

A longer call fails where one of its instructions does, so what it leaves behind is what
the instruction before that one has left.
-/
import Mathlib.Data.Nat.Digits.Lemmas
import Advent.Proofs.Intcode.Converse
import Advent.Proofs.Intcode.Instruction
import Advent.Proofs.Intcode.Once

namespace Advent

/-! ### Integers that are too long to be written -/

/-- The fault would have to name an integer of more digits than can be written. -/
def Fault.TooLong (f : Fault) : Prop :=
  ∃ n ∈ f.integers, Numeral.maxDigits < (Nat.digits 10 n.natAbs).length

theorem Numeral.fits_iff (n : Int) :
    fits n = true ↔ (Nat.digits 10 n.natAbs).length ≤ maxDigits := by
  unfold fits bound
  rw [decide_eq_true_iff, Nat.digits_length_le_iff (by decide), Nat.pow_eq]

theorem Fault.reported_of_tooLong {f : Fault} (h : f.TooLong) : f.reported = .unwritable := by
  obtain ⟨n, hn, hlong⟩ := h
  refine if_neg fun hall => ?_
  have := (Numeral.fits_iff n).mp (List.all_eq_true.mp hall n hn)
  omega

theorem Fault.reported_of_not_tooLong {f : Fault} (h : ¬ f.TooLong) : f.reported = f := by
  refine if_pos (List.all_eq_true.mpr fun n hn => ?_)
  rw [Numeral.fits_iff]
  exact Nat.le_of_not_lt fun hlong => h ⟨n, hn, hlong⟩

namespace Intcode

/-! ### Checks -/

/-- The checks of an instruction. -/
inductive Check where
  /-- The word is not negative. -/
  | word
  /-- The code names an operation. -/
  | code
  /-- Parameter `j` has a mode. -/
  | mode (j : Nat)
  /-- Parameter `j` is not immediate if it is written to. -/
  | use (j : Nat)
  /-- Parameter `j` uses no address below zero. -/
  | place (j : Nat)
  /-- A jump that is taken does not lead below zero. -/
  | jumpBelow
  /-- A jump that is taken does not lead past a bound. -/
  | jumpPast
  deriving DecidableEq

/-- How many parameters were read when the check is made.  Only operations with two
parameters jump. -/
def Check.read : Check → Nat
  | word | code => 0
  | mode j | use j | place j => j
  | jumpBelow | jumpPast => 2

/-- The checks of parameter `j`, in order. -/
def Check.ofParam (j : Nat) : List Check := [.mode j, .use j, .place j]

namespace Machine

variable {m : Machine}

/-- The checks of the instruction at the program counter, in order. -/
def checks (m : Machine) : List Check :=
  [.word, .code] ++ (List.range (arity m.opcode)).flatMap Check.ofParam ++ [.jumpBelow, .jumpPast]

def Violates (m : Machine) : Check → Prop
  | .word => m.word < 0
  | .code => m.opcode ∉ [1, 2, 3, 4, 5, 6, 7, 8, 9, 99]
  | .mode j => ¬ (m.digit j = 0 ∨ m.digit j = 1 ∨ m.digit j = 2)
  | .use j => Writes m.opcode j ∧ m.digit j = 1
  | .place j => m.digit j ≠ 1 ∧ m.place j < 0
  | .jumpBelow => m.Jumps ∧ m.value 1 < 0
  | .jumpPast => m.Jumps ∧ m.bounded = true ∧ m.memory.extent ≤ m.value 1

instance (m : Machine) : DecidablePred m.Violates := by
  intro c
  cases c <;> unfold Violates <;> unfold Jumps Writes <;> infer_instance

/-- The fault of a check that is violated. -/
def complaint (m : Machine) : Check → Fault
  | .word => .negativeWord m.word
  | .code => .unknownCode m.opcode.toNat m.pc
  | .mode j => .unknownMode (m.digit j).toNat j m.word.toNat
  | .use j => .immediateTarget (m.pc + (1 + j))
  | .place j => .negativeAddress (m.place j)
  | .jumpBelow => .negativeAddress (m.value 1)
  | .jumpPast => .jumpOutside (m.value 1) m.memory.extent

/-- The first check that the instruction at the program counter violates. -/
def firstViolated (m : Machine) : Option Check := m.checks.find? fun c => m.Violates c

/-! ### Legal instructions violate nothing -/

theorem mem_checks {c : Check} :
    c ∈ m.checks ↔ c = .word ∨ c = .code ∨
      (∃ j < arity m.opcode, c = .mode j ∨ c = .use j ∨ c = .place j) ∨
      c = .jumpBelow ∨ c = .jumpPast := by
  simp [checks, Check.ofParam]

/-- An instruction that violates nothing is legal, and no other is. -/
theorem firstViolated_eq_none_iff : m.firstViolated = none ↔ m.Legal := by
  have hfind : m.firstViolated = none ↔ ∀ c ∈ m.checks, ¬ m.Violates c := by
    simp [firstViolated]
  rw [hfind]
  refine ⟨fun h => ?_, fun h c hc hv => ?_⟩
  · have hparam : ∀ j < arity m.opcode,
        ¬ m.Violates (.mode j) ∧ ¬ m.Violates (.use j) ∧ ¬ m.Violates (.place j) := by
      intro j hj
      exact ⟨h _ (mem_checks.mpr (by simp [hj])), h _ (mem_checks.mpr (by simp [hj])),
        h _ (mem_checks.mpr (by simp [hj]))⟩
    have hword := h .word (mem_checks.mpr (by simp))
    have hcode := h .code (mem_checks.mpr (by simp))
    have hbelow := h .jumpBelow (mem_checks.mpr (by simp))
    have hpast := h .jumpPast (mem_checks.mpr (by simp))
    refine ⟨Int.not_lt.mp hword, Classical.not_not.mp hcode, fun j hj => ?_, fun j hj hw hd => ?_,
      fun j hj hd => ?_, fun hj => ⟨?_, fun hb => ?_⟩⟩
    · exact Classical.not_not.mp (hparam j hj).1
    · exact (hparam j hj).2.1 ⟨hw, hd⟩
    · exact Int.not_lt.mp fun hneg => (hparam j hj).2.2 ⟨hd, hneg⟩
    · exact Int.not_lt.mp fun hneg => hbelow ⟨hj, hneg⟩
    · exact Int.not_le.mp fun hle => hpast ⟨hj, hb, hle⟩
  · rcases mem_checks.mp hc with rfl | rfl | ⟨j, hj, rfl | rfl | rfl⟩ | rfl | rfl
    · exact absurd h.word (Int.not_le.mpr hv)
    · exact hv h.code
    · exact hv (h.mode j hj)
    · exact h.output j hj hv.1 hv.2
    · exact absurd (h.address j hj hv.1) (Int.not_le.mpr hv.2)
    · exact absurd (h.jump hv.1).1 (Int.not_le.mpr hv.2)
    · exact absurd ((h.jump hv.1).2 hv.2.1) (Int.not_lt.mpr hv.2.2)

/-! ### The parameters

A parameter is checked for its mode, for its use and for its place, in this order.  If it violates
none of these it is read, and otherwise reading stops there with the complaint.
-/

theorem address_error {a : Int} {fault : Fault} (h : address a = .error fault) :
    a < 0 ∧ fault = (Fault.negativeAddress a).reported := by
  unfold address at h
  split at h
  · exact ⟨‹_›, (Except.error.inj h).symm⟩
  · cases h

/-- The first of the checks of parameter `j` that is violated. -/
def firstOf (m : Machine) (j : Nat) : Option Check :=
  (Check.ofParam j).find? fun c => m.Violates c

theorem firstOf_read {j : Nat} {c : Check} (h : m.firstOf j = some c) : c.read = j := by
  have hmem := List.mem_of_find?_eq_some h
  simp only [Check.ofParam, List.mem_cons, List.not_mem_nil, or_false] at hmem
  rcases hmem with rfl | rfl | rfl <;> rfl

theorem firstOf_mode {j : Nat} (h : ¬ (m.digit j = 0 ∨ m.digit j = 1 ∨ m.digit j = 2)) :
    m.firstOf j = some (.mode j) :=
  List.find?_cons_of_pos (decide_eq_true h)

theorem firstOf_use {j : Nat} (hw : Writes m.opcode j) (hd : m.digit j = 1) :
    m.firstOf j = some (.use j) := by
  simp [firstOf, Check.ofParam, Violates, hw, hd]

theorem firstOf_place {j : Nat} (hd : m.digit j = 0 ∨ m.digit j = 2) (hneg : m.place j < 0) :
    m.firstOf j = some (.place j) := by
  rcases hd with hd | hd <;> simp [firstOf, Check.ofParam, Violates, hd, hneg]

/-- A parameter that cannot be read fails at the first of its checks that is violated. -/
theorem param_error {op : Operation} (hword : 0 ≤ m.word) (hcode : m.opcode = op.code) {j : Nat}
    (hj : j < op.roles.length) {fault : Fault}
    (h : (m.advance (1 + j)).param m.fetched j op.roles[j] = .error fault) :
    ∃ c, m.firstOf j = some c ∧ fault = (m.complaint c).reported := by
  have hdigit : m.digit j = m.fetched.modeDigit j := digit_eq hword j
  -- a place that is refused is the last thing to be looked at, for a value as for a target
  have hplaced : m.digit j = 0 ∨ m.digit j = 2 → address (m.place j) = .error fault →
      ∃ c, m.firstOf j = some c ∧ fault = (m.complaint c).reported := by
    intro hd ha
    obtain ⟨hneg, hfault⟩ := address_error ha
    exact ⟨.place j, firstOf_place hd hneg, hfault⟩
  have hposition : address (m.operand j) = .error fault → m.digit j = 0 →
      ∃ c, m.firstOf j = some c ∧ fault = (m.complaint c).reported := by
    intro ha hd
    have hplace : m.place j = m.operand j := by simp [place, hd]
    exact hplaced (Or.inl hd) (hplace ▸ ha)
  have hrelative : address (m.relativeBase + m.operand j) = .error fault → m.digit j = 2 →
      ∃ c, m.firstOf j = some c ∧ fault = (m.complaint c).reported := by
    intro ha hd
    have hplace : m.place j = m.relativeBase + m.operand j := by simp [place, hd]
    exact hplaced (Or.inr hd) (hplace ▸ ha)
  unfold param at h
  cases hmode : m.fetched.mode j with
  | error fault' =>
      have hnone : ¬ (m.digit j = 0 ∨ m.digit j = 1 ∨ m.digit j = 2) := by
        have hmodes : ∀ mode : Mode, m.fetched.modeDigit j ≠ mode.digit := by
          intro mode hd
          rw [(mode_ok_iff _ _ mode).mpr hd] at hmode
          cases hmode
        have h0 := hmodes .position
        have h1 := hmodes .immediate
        have h2 := hmodes .relative
        simp only [Mode.digit] at h0 h1 h2
        omega
      simp only [hmode, bind, Except.bind, Except.error.injEq] at h
      refine ⟨.mode j, firstOf_mode hnone, ?_⟩
      unfold Word.mode at hmode
      split at hmode
      · cases hmode
      · rw [← h, ← Except.error.inj hmode]
        show _ = (Fault.unknownMode (m.digit j).toNat j m.word.toNat).reported
        rw [hdigit, Int.toNat_natCast]
        rfl
  | ok mode =>
      have hdm : m.digit j = mode.digit := by rw [hdigit, (mode_ok_iff _ _ mode).mp hmode]
      simp only [hmode, bind, Except.bind] at h
      rcases op.roles_getD hj with ⟨hrole, -⟩ | ⟨hrole, hwrites⟩ <;>
        rw [List.getD_eq_getElem?_getD, List.getElem?_eq_getElem hj, Option.getD_some] at hrole <;>
        simp only [hrole] at h
      · cases mode with
        | position => exact hposition (map_fault h) hdm
        | immediate => cases h
        | relative => exact hrelative (map_fault h) hdm
      · cases mode with
        | position => exact hposition h hdm
        | immediate =>
            refine ⟨.use j, firstOf_use (by rw [hcode]; exact hwrites) hdm, ?_⟩
            exact (Except.error.inj h).symm
        | relative => exact hrelative h hdm

/-- A parameter that is read violates none of its checks. -/
theorem firstOf_of_param_ok {op : Operation} (hword : 0 ≤ m.word) (hcode : m.opcode = op.code)
    {j : Nat} (hj : j < op.roles.length) {v : Int}
    (h : (m.advance (1 + j)).param m.fetched j op.roles[j] = .ok v) : m.firstOf j = none := by
  obtain ⟨hlegible, -⟩ := (param_ok_iff _ _ _ _ _).mp h
  rw [← digit_eq hword] at hlegible
  have huse : ¬ m.Violates (.use j) := by
    intro hv
    obtain ⟨hwrites, hd⟩ := hv
    rw [hcode] at hwrites
    rcases op.roles_getD hj with ⟨-, hnot⟩ | ⟨hrole, -⟩
    · exact hnot hwrites
    · rw [List.getD_eq_getElem?_getD, List.getElem?_eq_getElem hj, Option.getD_some] at hrole
      rcases hlegible.use with hinput | ⟨-, hne⟩
      · rw [hrole] at hinput
        cases hinput
      · exact hne hd
  have hplace : ¬ m.Violates (.place j) := fun hv =>
    absurd (hlegible.address hv.1) (Int.not_le.mpr hv.2)
  have hmode : ¬ m.Violates (.mode j) := fun hv => hv hlegible.mode
  simp only [firstOf, Check.ofParam, List.find?_eq_none]
  intro c hc
  simp only [List.mem_cons, List.not_mem_nil, or_false] at hc
  rcases hc with rfl | rfl | rfl
  · exact fun hv => hmode (of_decide_eq_true hv)
  · exact fun hv => huse (of_decide_eq_true hv)
  · exact fun hv => hplace (of_decide_eq_true hv)

/-- A reading stops at the first check that is violated, with the parameters before it. -/
theorem params_error {op : Operation} (hword : 0 ≤ m.word) (hcode : m.opcode = op.code)
    (roles : List Role) :
    ∀ {i : Nat} {fault : Fault}, op.roles.drop i = roles →
      ((m.advance (1 + i)).params m.fetched i roles).result = .error fault →
      ∃ c, ((List.range' i roles.length).flatMap Check.ofParam).find? (fun c => m.Violates c) = some c ∧
        fault = (m.complaint c).reported ∧
        c.read = i + ((m.advance (1 + i)).params m.fetched i roles).values.length := by
  induction roles with
  | nil => intro i fault _ h; cases h
  | cons role roles ih =>
      intro i fault hdrop h
      have hi : i < op.roles.length := by
        have := congrArg List.length hdrop
        simp only [List.length_drop, List.length_cons] at this
        omega
      obtain ⟨hrole, hrest⟩ : op.roles[i] = role ∧ op.roles.drop (i + 1) = roles := by
        rw [List.drop_eq_getElem_cons hi] at hdrop
        exact List.cons.inj hdrop
      -- the checks of the first parameter come before those of the others
      have hfind : ((List.range' i (role :: roles).length).flatMap Check.ofParam).find?
            (fun c => m.Violates c) =
          (m.firstOf i).or (((List.range' (i + 1) roles.length).flatMap Check.ofParam).find?
            fun c => m.Violates c) := by
        rw [List.length_cons, List.range'_succ, List.flatMap_cons, List.find?_append]
        rfl
      have hnext : (m.advance (1 + i)).advance 1 = m.advance (1 + (i + 1 : Nat)) := by
        rw [advance_advance]
        congr 1
      rw [params_cons_result, hnext] at h
      rw [hfind, params, hnext]
      cases hparam : (m.advance (1 + i)).param m.fetched i role with
      | error fault' =>
          obtain ⟨c, hfirst, hfault⟩ := param_error hword hcode hi (by rw [hrole]; exact hparam)
          simp only [hparam, bind, Except.bind, Except.error.injEq] at h
          exact ⟨c, by rw [hfirst]; rfl, h ▸ hfault, firstOf_read hfirst⟩
      | ok v =>
          simp only [hparam, bind, Except.bind] at h
          cases hres : ((m.advance (1 + (i + 1 : Nat))).params m.fetched (i + 1) roles).result with
          | ok vs =>
              simp only [hres] at h
              cases h
          | error fault' =>
              simp only [hres, Except.error.injEq] at h
              obtain ⟨c, hfirst, hfault, hread⟩ := ih hrest hres
              refine ⟨c, ?_, h ▸ hfault, ?_⟩
              · rw [firstOf_of_param_ok hword hcode hi (by rw [hrole]; exact hparam), hfirst]
                rfl
              · rw [hread]
                show _ = i + (v :: _).length
                rw [List.length_cons]
                omega

/-! ### The instruction -/

theorem firstViolated_of_word (h : m.word < 0) : m.firstViolated = some .word :=
  List.find?_cons_of_pos (decide_eq_true h)

theorem firstViolated_of_code (hword : 0 ≤ m.word)
    (h : m.opcode ∉ [1, 2, 3, 4, 5, 6, 7, 8, 9, 99]) : m.firstViolated = some .code := by
  have hpass : ¬ m.Violates .word := Int.not_lt.mpr hword
  show List.find? _ (Check.word :: Check.code :: _) = _
  rw [List.find?_cons_of_neg (by simpa using hpass)]
  exact List.find?_cons_of_pos (decide_eq_true h)

/-- Past the word and its code, the parameters are looked at first. -/
theorem firstViolated_of_known {op : Operation} (hword : 0 ≤ m.word) (hcode : m.opcode = op.code) :
    m.firstViolated =
      (((List.range' 0 op.roles.length).flatMap Check.ofParam).find? (fun c => m.Violates c)).or
        ([Check.jumpBelow, .jumpPast].find? fun c => m.Violates c) := by
  have hw : ¬ m.Violates .word := Int.not_lt.mpr hword
  have hc : ¬ m.Violates .code := fun hv => hv ((Operation.known_iff _).mpr ⟨op, hcode⟩)
  have hlen : arity m.opcode = op.roles.length := by rw [hcode, Operation.arity_code]
  show List.find? _ (Check.word :: Check.code :: (_ ++ _)) = _
  rw [List.find?_cons_of_neg (by simpa using hw), List.find?_cons_of_neg (by simpa using hc), hlen,
    List.range_eq_range', List.find?_append]
  rfl

/-- An instruction that cannot be decoded violates a check that comes before those of a jump. -/
theorem decode_error {fault : Fault} {n : Nat} (h : m.decode = (.error fault, n)) :
    ∃ c, m.firstViolated = some c ∧ fault = (m.complaint c).reported ∧ n = 1 + c.read := by
  unfold decode at h
  by_cases hneg : m.word < 0
  · have hofInt : Word.ofInt (m.memory.get m.pc) = .error (Fault.negativeWord m.word).reported :=
      if_pos hneg
    simp only [hofInt, Prod.mk.injEq, Except.error.injEq] at h
    obtain ⟨rfl, rfl⟩ := h
    exact ⟨.word, firstViolated_of_word hneg, rfl, rfl⟩
  · have hword : 0 ≤ m.word := Int.not_lt.mp hneg
    have hofInt : Word.ofInt (m.memory.get m.pc) = .ok m.fetched :=
      (Word.ofInt_ok_iff _ _).mpr ⟨hword, rfl⟩
    simp only [hofInt] at h
    -- the word is one, so either its code is unknown or a parameter cannot be read
    cases hop : Operation.ofCode? m.fetched.code with
    | none =>
        have hunknown : m.opcode ∉ [1, 2, 3, 4, 5, 6, 7, 8, 9, 99] := by
          intro hknown
          obtain ⟨op, hcode⟩ := (Operation.known_iff _).mp hknown
          rw [opcode_eq hword, Int.natCast_inj] at hcode
          rw [(Operation.ofCode?_eq_some_iff _ op).mpr hcode] at hop
          cases hop
        have hfault : (Fault.unknownCode m.fetched.code m.pc) = m.complaint .code := by
          show _ = Fault.unknownCode m.opcode.toNat m.pc
          rw [opcode_eq hword, Int.toNat_natCast]
        simp only [hop, hfault, Fault.raise, Prod.mk.injEq, Except.error.injEq] at h
        obtain ⟨rfl, rfl⟩ := h
        exact ⟨.code, firstViolated_of_code hword hunknown, rfl, rfl⟩
    | some op =>
        have hcode : m.opcode = op.code := by
          rw [opcode_eq hword, (Operation.ofCode?_eq_some_iff _ op).mp hop]
        simp only [hop, Prod.mk.injEq] at h
        obtain ⟨c, hfirst, hfault, hread⟩ :=
          params_error (i := 0) hword hcode op.roles List.drop_zero (map_fault h.1)
        refine ⟨c, ?_, hfault, ?_⟩
        · rw [firstViolated_of_known hword hcode, hfirst]
          rfl
        · rw [show (1 : Int) + (0 : Nat) = 1 from rfl] at hread
          omega

theorem jumpTarget_error {target : Int} {fault : Fault} (h : m.jumpTarget target = .error fault) :
    target < 0 ∧ fault = (Fault.negativeAddress target).reported ∨
      0 ≤ target ∧ m.bounded = true ∧ m.memory.extent ≤ target ∧
        fault = (Fault.jumpOutside target m.memory.extent).reported := by
  unfold jumpTarget at h
  cases haddress : address target with
  | error fault' =>
      simp only [haddress, bind, Except.bind, Except.error.injEq] at h
      exact Or.inl (h ▸ address_error haddress)
  | ok a =>
      obtain ⟨hnonneg, rfl⟩ := (address_ok_iff target a).mp haddress
      simp only [haddress, bind, Except.bind] at h
      split at h
      · rename_i houtside
        exact Or.inr ⟨hnonneg, houtside.1, houtside.2, (Except.error.inj h).symm⟩
      · cases h

/-- A jump that is refused violates one of the two checks of its target, and all before
it have passed. -/
theorem apply_error {after : Machine} {e : Effect} {n : Nat} {fault : Fault}
    (hd : m.decode = (.ok e, n)) (h : (m.advance n).apply e = (.error fault, after)) :
    ∃ c, m.firstViolated = some c ∧ fault = (m.complaint c).reported ∧ n = 1 + c.read ∧
      after = m.advance n := by
  obtain ⟨hword, op, hcode, rfl, hn, hparams⟩ := of_decode_ok hd
  -- all parameters were read, so only the target of a jump can be left to complain of
  have hnone : ((List.range' 0 op.roles.length).flatMap Check.ofParam).find?
      (fun c => m.Violates c) = none := by
    rw [List.find?_eq_none]
    intro c hc hv
    obtain ⟨j, hj, hc⟩ := List.mem_flatMap.mp hc
    have hj' : j < arity m.opcode := by
      rw [hcode, Operation.arity_code]
      simpa using hj
    obtain ⟨hmode, huse, hplace⟩ := hparams j hj'
    have hv' := of_decide_eq_true hv
    simp only [Check.ofParam, List.mem_cons, List.not_mem_nil, or_false] at hc
    rcases hc with rfl | rfl | rfl
    · exact hv' hmode
    · exact huse hv'.1 hv'.2
    · exact absurd (hplace hv'.1) (Int.not_le.mpr hv'.2)
  rw [firstViolated_of_known hword hcode, hnone, Option.none_or]
  cases op with
  | jump onNonzero =>
      rcases effect_jump_cases hword hcode with ⟨hjumps, he⟩ | ⟨-, he⟩
      · rw [he] at h
        simp only [apply] at h
        cases ht : (m.advance n).jumpTarget (m.value 1) with
        | ok a => simp [ht] at h
        | error fault' =>
            simp only [ht, Prod.mk.injEq, Except.error.injEq] at h
            obtain ⟨rfl, rfl⟩ := h
            rcases jumpTarget_error ht with ⟨hneg, hfault⟩ | ⟨hnonneg, hb, hpast, hfault⟩
            · have hv : m.Violates .jumpBelow := ⟨hjumps, hneg⟩
              exact ⟨.jumpBelow, List.find?_cons_of_pos (decide_eq_true hv), hfault, hn, rfl⟩
            · have hnot : ¬ m.Violates .jumpBelow := fun hv => absurd hv.2 (Int.not_lt.mpr hnonneg)
              have hv : m.Violates .jumpPast := ⟨hjumps, hb, hpast⟩
              refine ⟨.jumpPast, ?_, hfault, hn, rfl⟩
              rw [List.find?_cons_of_neg (by simpa using hnot)]
              exact List.find?_cons_of_pos (decide_eq_true hv)
      · rw [he] at h
        cases h
  | _ => cases h

/-- The instruction at the program counter fails with this fault and leaves this machine
behind.  The fault is that of the first check that is violated, unless it would have to
name too long an integer.  Only the program counter has moved: past the word and the
parameters that were read. -/
def Fails (m : Machine) (fault : Fault) (after : Machine) : Prop :=
  ∃ c, m.firstViolated = some c ∧
    (¬ (m.complaint c).TooLong ∧ fault = m.complaint c ∨
      (m.complaint c).TooLong ∧ fault = .unwritable) ∧
    after = { m with pc := m.pc + 1 + c.read }

theorem fails_of_reported {c : Check} {fault : Fault} {n : Nat} (hc : m.firstViolated = some c)
    (hfault : fault = (m.complaint c).reported) (hn : n = 1 + c.read) :
    m.Fails fault (m.advance n) := by
  refine ⟨c, hc, ?_, ?_⟩
  · by_cases hlong : (m.complaint c).TooLong
    · exact Or.inr ⟨hlong, by rw [hfault, Fault.reported_of_tooLong hlong]⟩
    · exact Or.inl ⟨hlong, by rw [hfault, Fault.reported_of_not_tooLong hlong]⟩
  · show { m with pc := m.pc + (n : Int) } = _
    rw [hn, Int.natCast_add, ← Int.add_assoc]
    rfl

/-- A machine fails in one way only. -/
theorem Fails.unique {fault fault' : Fault} {after after' : Machine} (h : m.Fails fault after)
    (h' : m.Fails fault' after') : fault = fault' ∧ after = after' := by
  obtain ⟨c, hc, hfault, rfl⟩ := h
  obtain ⟨c', hc', hfault', rfl⟩ := h'
  rw [hc] at hc'
  obtain rfl := Option.some.inj hc'
  refine ⟨?_, rfl⟩
  rcases hfault with ⟨hn, rfl⟩ | ⟨hl, rfl⟩ <;> rcases hfault' with ⟨hn', rfl⟩ | ⟨hl', rfl⟩
  · rfl
  · exact absurd hl' hn
  · exact absurd hl hn'
  · rfl

/-- **An instruction fails at its first violated check.** -/
theorem exec_error_iff (m : Machine) (fault : Fault) (after : Machine) :
    m.exec = (.error fault, after) ↔ m.Fails fault after := by
  have hfails : ∀ fault after, m.exec = (.error fault, after) → m.Fails fault after := by
    intro fault after h
    rw [exec_eq] at h
    rcases hd : m.decode with ⟨fault' | e, n⟩ <;> simp only [hd] at h
    · obtain ⟨rfl, rfl⟩ := by simpa only [Prod.mk.injEq, Except.error.injEq] using h
      obtain ⟨c, hc, hfault, hn⟩ := decode_error hd
      exact fails_of_reported hc hfault hn
    · obtain ⟨c, hc, hfault, hn, rfl⟩ := apply_error hd h
      exact fails_of_reported hc hfault hn
  refine ⟨hfails fault after, fun h => ?_⟩
  rcases hexec : m.exec with ⟨fault' | outcome, m'⟩
  · obtain ⟨rfl, rfl⟩ := (hfails fault' m' hexec).unique h
    rfl
  · -- a legal instruction violates no check
    obtain ⟨c, hc, -, -⟩ := h
    rw [firstViolated_eq_none_iff.mpr ((exec_ok_iff m).mp ⟨outcome, m', hexec⟩)] at hc
    cases hc

theorem drive_error_iff (m : Machine) (fault : Fault) (after : Machine) :
    (∃ steps, m.drive steps = some (.error fault, after)) ↔
      ∃ n last, Passes n m last ∧ last.Fails fault after := by
  rw [drive_iff_passes]
  simp only [Except.map, exec_error_iff]

end Machine

theorem Batch.ends_failed_iff (b : Batch) (fault : Fault) (last : Batch) :
    b.Ends (.failed fault) last ↔
      ∃ n before m', Passes n b before ∧ before.machine.Fails fault m' ∧
        last = { before with machine := m' } := by
  refine ⟨?_, ?_⟩
  · intro hends
    obtain ⟨n, before, hpasses, hturn⟩ := hends
    obtain ⟨hlast, ⟨fault', he, hexec⟩ | ⟨he, -⟩ | ⟨he, -⟩⟩ := of_turn_last hturn
    · cases he
      exact ⟨n, before, _, hpasses, (Machine.exec_error_iff _ _ _).mp hexec, hlast⟩
    · cases he
    · cases he
  · intro hright
    obtain ⟨n, before, m', hpasses, hfails, rfl⟩ := hright
    have hexec := (Machine.exec_error_iff _ _ _).mpr hfails
    exact ⟨n, before, hpasses, by simp only [turn_eq, hexec]⟩

/-! ### Calls

A call that fails leaves the machine that it concerns as the failed instruction leaves it, and
everything else in the store as it was.
-/

namespace Store

theorem settle_error_iff (s : Store) (r : MachineRef) (x : Except Fault (Option Stop) × Machine)
    (fault : Fault) (s' : Store) :
    s.settle r x = (.error fault, s') ↔ ∃ m, x = (.error fault, m) ∧ s' = s.setMachine r m := by
  rcases x with ⟨fault' | _ | stop, m⟩
  · refine ⟨?_, ?_⟩
    · intro h
      cases h
      exact ⟨m, rfl, rfl⟩
    · rintro ⟨m', hm, rfl⟩
      cases hm
      rfl
  · simp [settle]
  · simp [settle]

theorem step_error_iff {m : Machine} (hfresh : m.started = false) (fault : Fault) (m' : Machine) :
    m.step = (.error fault, m') ↔ m.Fails fault m' := by
  rw [← Machine.exec_error_iff]
  simp only [Machine.step, hfresh, Bool.false_eq_true, if_false]
  rcases m.exec with ⟨fault' | _ | stop, m''⟩ <;> simp

/-- A call that drives a machine from here fails where one of its instructions does. -/
theorem drive_settle_error_iff (s : Store) (r : MachineRef) (m : Machine) (fault : Fault) (s' : Store) :
    (∃ steps, (m.drive steps).map (fun x => s.settle r (x.1.map some, x.2)) = some (.error fault, s')) ↔
      ∃ n last m', Machine.Passes n m last ∧ last.Fails fault m' ∧ s' = s.setMachine r m' := by
  refine ⟨?_, ?_⟩
  · intro hleft
    obtain ⟨steps, h⟩ := hleft
    obtain ⟨⟨result, m₁⟩, hdrive, hsettle⟩ := Option.map_eq_some_iff.mp h
    obtain ⟨m', hx, hs⟩ := (settle_error_iff _ _ _ _ _).mp hsettle
    have hresult : result = .error fault := Machine.map_fault (Prod.mk.inj hx).1
    obtain rfl : m₁ = m' := (Prod.mk.inj hx).2
    rw [hresult] at hdrive
    obtain ⟨n, last, hpasses, hfails⟩ := (Machine.drive_error_iff m fault m₁).mp ⟨steps, hdrive⟩
    exact ⟨n, last, m₁, hpasses, hfails, hs⟩
  · intro hright
    obtain ⟨n, last, m', hpasses, hfails, rfl⟩ := hright
    obtain ⟨steps, hdrive⟩ := (Machine.drive_error_iff m fault m').mpr ⟨n, last, hpasses, hfails⟩
    exact ⟨steps, by rw [hdrive]; rfl⟩

theorem perform_runWithInputs (s : Store) (r : MachineRef) (inputs : List Int) (steps : Nat) :
    s.perform steps (.runWithInputs r inputs) =
      ((s.machine r).runWithInputs steps inputs).map fun t =>
        (t.result.map fun _ => .numbers t.outputs, s.setMachine r t.machine) := by
  rw [perform]
  cases (s.machine r).runWithInputs steps inputs <;> rfl

/-- A run with inputs fails, for another reason than want of input, where an instruction does. -/
theorem runWithInputs_error_iff {s : Store} {r : MachineRef} (hfresh : (s.machine r).started = false)
    (inputs : List Int) {fault : Fault} (hkind : fault.kind ≠ .inputExhausted) (s' : Store) :
    (∃ steps, s.perform steps (.runWithInputs r inputs) = some (.error fault, s')) ↔
      ∃ n b m', Batch.Passes n (Batch.start (s.machine r) inputs) b ∧ b.machine.Fails fault m' ∧
        s' = s.setMachine r { m' with started := true } := by
  have hanswers := Machine.answers_failed_iff (m := s.machine r) hfresh inputs
  refine ⟨?_, ?_⟩
  · intro hleft
    obtain ⟨steps, h⟩ := hleft
    rw [perform_runWithInputs] at h
    obtain ⟨t, ht, hsettle⟩ := Option.map_eq_some_iff.mp h
    obtain ⟨hresult, rfl⟩ := Prod.mk.inj hsettle
    obtain ⟨b, hends, -, hmachine⟩ := (hanswers t.outputs hkind t.machine).mp
      ⟨steps, t, ht, Machine.map_fault hresult, rfl, rfl⟩
    obtain ⟨n, before, m', hpasses, hfails, rfl⟩ := (Batch.ends_failed_iff _ _ _).mp hends
    exact ⟨n, before, m', hpasses, hfails, by rw [← hmachine]⟩
  · intro hright
    obtain ⟨n, before, m', hpasses, hfails, rfl⟩ := hright
    have hends := (Batch.ends_failed_iff _ _ _).mpr ⟨n, before, m', hpasses, hfails, rfl⟩
    obtain ⟨steps, t, ht, hresult, -, hmachine⟩ := (hanswers before.written hkind _).mpr
      ⟨_, hends, rfl, rfl⟩
    exact ⟨steps, by rw [perform_runWithInputs, ht, Option.map_some, hresult, hmachine]; rfl⟩

/--
**A failed call leaves whole instructions behind.**  A step of a startable machine fails
exactly when its instruction violates a check, and then with the fault of the first one,
moving nothing but the program counter.  A run, an answer to a live pause and a run with
inputs fail exactly when one of their instructions does, after any number that were
carried out: the memory, the relative base and the flags are those that the last of them
has left, an answer being written before the first.  No other object changes, and an
answered pause stays answered.
-/
theorem perform_error_iff_fails {s : Store} {r : MachineRef} (hr : s.Holds r) :
    ((s.machine r).started = false → ∀ steps fault s',
      s.perform steps (.step r) = some (.error fault, s') ↔
        ∃ m', (s.machine r).Fails fault m' ∧ s' = s.setMachine r m') ∧
    ((s.machine r).started = false → ∀ fault s',
      (∃ steps, s.perform steps (.run r) = some (.error fault, s')) ↔
        ∃ n last m', Machine.Passes n { s.machine r with started := true } last ∧
          last.Fails fault m' ∧ s' = s.setMachine r m') ∧
    (∀ q value, s.Live r q → ∀ fault s',
      (∃ steps, s.perform steps (.resume q value) = some (.error fault, s')) ↔
        ∃ n last m', Machine.Passes n ((s.machine r).answer (s.stopped q).stop value) last ∧
          last.Fails fault m' ∧ s' = (s.markAnswered q).setMachine r m') ∧
    ((s.machine r).started = false → ∀ inputs fault s', fault.kind ≠ .inputExhausted →
      ((∃ steps, s.perform steps (.runWithInputs r inputs) = some (.error fault, s')) ↔
        ∃ n b m', Batch.Passes n (Batch.start (s.machine r) inputs) b ∧ b.machine.Fails fault m' ∧
          s' = s.setMachine r { m' with started := true })) ∧
    (∀ m', (s.setMachine r m').machine r = m' ∧
      ∀ q, ((s.markAnswered q).setMachine r m').machine r = m') := by
  refine ⟨fun hfresh steps fault s' => ?_, fun hfresh fault s' => ?_, fun q value hlive fault s' => ?_,
    fun hfresh inputs fault s' hkind => runWithInputs_error_iff hfresh inputs hkind s',
    fun m' => ⟨machine_setMachine hr m', fun q => ?_⟩⟩
  · rw [perform, Option.some.injEq, settle_error_iff]
    simp only [step_error_iff hfresh]
  · simp only [perform_run hfresh]
    exact drive_settle_error_iff s r _ fault s'
  · simp only [perform_resume hlive]
    exact drive_settle_error_iff (s.markAnswered q) r _ fault s'
  · exact machine_setMachine (s := s.markAnswered q) ⟨hr.frame, hr.memory⟩ m'

/-- A machine that squares three and then asks for input with nowhere to put it. -/
def misdirected : Store := (empty.addMachine { memory := .ofValues [1102, 3, 3, 0, 103] }).2

/-- The square is kept, and only the word of the second instruction was read. -/
theorem misdirected_run_fails :
    misdirected.Holds ⟨0⟩ ∧ (misdirected.machine ⟨0⟩).started = false ∧
      ∃ s', misdirected.perform 2 (.run ⟨0⟩) = some (.error (.immediateTarget 5), s') ∧
        ∃ n last m', Machine.Passes n { misdirected.machine ⟨0⟩ with started := true } last ∧
          last.Fails (.immediateTarget 5) m' ∧ s' = misdirected.setMachine ⟨0⟩ m' ∧
          m'.memory.get 0 = 9 ∧ m'.pc = 5 := by
  have hholds : misdirected.Holds ⟨0⟩ := ⟨by decide, by decide⟩
  have h := perform_error_iff_fails hholds
  have hshort : (Fault.immediateTarget 5).reported = .immediateTarget 5 :=
    Fault.reported_of_not_tooLong (by simp [Fault.TooLong, Fault.integers, Numeral.maxDigits])
  have hrun : ∃ s', misdirected.perform 2 (.run ⟨0⟩) =
        some (.error (Fault.immediateTarget 5).reported, s') ∧
      (s'.machine ⟨0⟩).memory.get 0 = 9 ∧ (s'.machine ⟨0⟩).pc = 5 := ⟨_, rfl, rfl, rfl⟩
  rw [hshort] at hrun
  obtain ⟨s', hrun, hvalue, hpc⟩ := hrun
  obtain ⟨n, last, m', hpasses, hfails, hs⟩ := (h.2.1 rfl _ s').mp ⟨2, hrun⟩
  rw [hs, (h.2.2.2.2 m').1] at hvalue hpc
  exact ⟨hholds, rfl, s', hrun, n, last, m', hpasses, hfails, hs, hvalue, hpc⟩

end Store

end Intcode
end Advent
