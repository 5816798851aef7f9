/-
What holds in every store that calls can lead to.

A memory is written by instructions, by values handed in and by calls from outside, and
none of them reaches a negative address: an instruction and a call check the address
first, and an input is written where an instruction asked for it, which was checked
then.  So whatever such writes preserve holds of every memory, for as long as a store
lives.  `Lasting` names these properties; they are kept on the course that a call takes,
`kept_of_lasting`, and `Sound.perform` carries one of them through a call, together with
the addresses of the inputs that are still wanted.
-/
import Advent.Intcode.Program
import Advent.Proofs.Intcode.Course

namespace Advent.Intcode

namespace Memory

/-- What holds of a memory without a cell, and is preserved by a write at an address
that is not negative and by copying. -/
structure Lasting (P : Memory → Prop) : Prop where
  empty : P empty
  put : ∀ {m : Memory} {a : Int}, P m → 0 ≤ a → ∀ value, P (m.put a value)
  copy : ∀ {m : Memory}, P m → P m.copy

theorem Lasting.putAll {P : Memory → Prop} (hP : Lasting P) {m : Memory} (hm : P m)
    (writes : List (Int × Int)) (hwrites : ∀ w ∈ writes, 0 ≤ w.1) : P (m.putAll writes) := by
  induction writes generalizing m with
  | nil => exact hm
  | cons w rest ih =>
      exact ih (hP.put hm (hwrites w List.mem_cons_self) w.2)
        fun w' hw' => hwrites w' (List.mem_cons_of_mem _ hw')

/-- Writes at or above zero keep the extent that of the cells. -/
theorem tight_lasting : Lasting Tight := by
  refine ⟨rfl, fun hm ha => put_tight hm ha, fun hm => ?_⟩
  rw [copy_of_tight hm]
  exact hm

end Memory

namespace Machine

variable {P : Memory → Prop}

/-- The memory satisfies `P`, and a value that is asked for has an address to go to. -/
structure Sound (P : Memory → Prop) (x : Except Fault (Option Stop) × Machine) : Prop where
  memory : P x.2.memory
  destination : ∀ destination, x.1 = .ok (some (.input destination)) → 0 ≤ destination

/-- What lasts of a memory is kept at every moment of its machine. -/
theorem kept_of_lasting (hP : Memory.Lasting P) : Kept fun m => P m.memory where
  exec {m} hm := by
    rw [exec_memory]
    exact hP.putAll hm m.writes fun w => writes_nonneg
  handed hm ha value := hP.put hm ha value
  marked hm _ := hm
  read hm _ := hm

/-- A run keeps what lasts, and stops for input at an address that may be written. -/
theorem drive_sound (hP : Memory.Lasting P) (steps : Nat) {m m' : Machine}
    {result : Except Fault Stop} (hm : P m.memory) (h : m.drive steps = some (result, m')) :
    Sound P (result.map some, m') := by
  obtain ⟨last, hcourse, hlast⟩ := drive_course steps m
  obtain rfl := hlast _ h
  refine ⟨(hcourse.keeps (kept_of_lasting hP) hm).1, fun destination hresult => ?_⟩
  cases result with
  | error fault => cases hresult
  | ok stop =>
      cases hresult
      exact drive_destination h

/-- An answer keeps what lasts, because it goes where the stop said. -/
theorem answer_sound (hP : Memory.Lasting P) {m : Machine} {stop : Stop} (hm : P m.memory)
    (hstop : ∀ destination, stop = .input destination → 0 ≤ destination) (value : Int) :
    P (m.answer stop value).memory :=
  ((answer_course m hstop value).keeps (kept_of_lasting hP) hm).1

end Machine

/-! ### Deeds

A deed does not know the store that it is for.  So what a call preserves is settled at its machine,
and what is left is to find a place for what is new.
-/

/-- Neither a stop nor a machine. -/
def Yield.Plain : Yield → Prop
  | .stop _ | .machine _ => False
  | _ => True

theorem Yield.plain_of_map {α : Type} {yields : α → Yield} {x : Except Fault α} {y : Yield}
    (h : x.map yields = .ok y) (hyields : ∀ a, (yields a).Plain) : y.Plain := by
  cases x with
  | error fault => cases h
  | ok a =>
      cases h
      exact hyields a

/-- The memories satisfy `P`, and a value that is asked for has an address to go to. -/
structure Deed.Sound (P : Memory → Prop) (d : Deed) : Prop where
  memory : P d.after.memory
  destination : ∀ destination, d.yields = .ok (.stop (.input destination)) → 0 ≤ destination
  machine : ∀ m, d.yields = .ok (.machine m) → P m.memory

theorem Deed.ofOutcome_sound {P : Memory → Prop} {x : Except Fault (Option Stop) × Machine}
    (h : Machine.Sound P x) : (ofOutcome x).Sound P := by
  obtain ⟨hmemory, hdestination⟩ := h
  rcases x with ⟨fault | _ | stop, m⟩
  · exact ⟨hmemory, fun _ h => (by cases h), fun _ h => (by cases h)⟩
  · exact ⟨hmemory, fun _ h => (by cases h), fun _ h => (by cases h)⟩
  · refine ⟨hmemory, fun destination h => ?_, fun _ h => (by cases h)⟩
    cases h
    exact hdestination destination rfl

/-- A deed is that of driving the machine, or it is a copy, or it yields something plain. -/
theorem Machine.deed_yields {steps : Nat} {h : Stopped} {m : Machine} {c : Call} {d : Deed}
    (hd : m.deed steps h c = some d) :
    (∃ x, d = .ofOutcome x ∧
      ∀ destination, x.1 = .ok (some (.input destination)) → 0 ≤ destination) ∨
      d.yields = .ok (.machine m.copy) ∨ ∀ y, d.yields = .ok y → y.Plain := by
  have hdriven : ∀ {m : Machine} {x : Except Fault Stop × Machine}, m.drive steps = some x →
      ∀ destination, x.1.map some = .ok (some (.input destination)) → 0 ≤ destination := by
    intro m x hdrive destination hx
    obtain ⟨fault | stop, m'⟩ := x
    · cases hx
    · cases hx
      exact drive_destination hdrive
  cases c with
  | step r =>
      cases hd
      refine Or.inl ⟨_, rfl, fun destination hx => ?_⟩
      unfold step at hx
      split at hx
      · cases hx
      · rcases hexec : m.exec with ⟨fault | _ | stop, m'⟩ <;> rw [hexec] at hx <;> cases hx
        exact exec_destination hexec
  | run r =>
      obtain ⟨x, hrun, rfl⟩ := Option.map_eq_some_iff.mp hd
      refine Or.inl ⟨_, rfl, ?_⟩
      unfold run at hrun
      split at hrun
      · cases hrun
        exact fun _ hx => by cases hx
      · exact hdriven hrun
  | resume q value =>
      rw [deed] at hd
      cases hrefusal : h.refusal with
      | some fault =>
          rw [hrefusal] at hd
          cases hd
          exact Or.inr (Or.inr fun _ hy => by cases hy)
      | none =>
          rw [hrefusal] at hd
          obtain ⟨x, hdrive, rfl⟩ := Option.map_eq_some_iff.mp hd
          exact Or.inl ⟨_, rfl, hdriven hdrive⟩
  -- the calls from here on drive no machine to a stop
  | copy r =>
      cases hd
      exact Or.inr (Or.inl rfl)
  | runWithInputs r inputs =>
      obtain ⟨t, -, rfl⟩ := Option.map_eq_some_iff.mp hd
      exact Or.inr (Or.inr fun _ hy => Yield.plain_of_map hy fun _ => trivial)
  | put r a value =>
      rw [deed] at hd
      cases hput : m.put a value <;> rw [hput] at hd <;> cases hd
      · exact Or.inr (Or.inr fun _ hy => by cases hy)
      · exact Or.inr (Or.inr fun _ hy => by cases hy; trivial)
  | readParams r word roles =>
      rw [deed] at hd
      cases hword : Word.ofInt word <;> rw [hword] at hd <;> cases hd
      · exact Or.inr (Or.inr fun _ hy => by cases hy)
      · exact Or.inr (Or.inr fun _ hy => Yield.plain_of_map hy fun _ => trivial)
  | get r a | readWord r | readInput r mode | readOutput r mode =>
      cases hd
      exact Or.inr (Or.inr fun _ hy => Yield.plain_of_map hy fun _ => trivial)

/-- Only a copy is a new machine. -/
theorem Machine.deed_machine {steps : Nat} {h : Stopped} {m m' : Machine} {c : Call} {d : Deed}
    (hd : m.deed steps h c = some d) (hy : d.yields = .ok (.machine m')) : m' = m.copy := by
  rcases deed_yields hd with ⟨⟨fault | _ | stop, _⟩, rfl, -⟩ | hcopy | hplain
  · cases hy
  · cases hy
  · cases hy
  · rw [hcopy] at hy
    cases hy
    rfl
  · exact (hplain _ hy).elim

/-- A deed keeps what lasts. -/
theorem Machine.deed_sound {P : Memory → Prop} (hP : Memory.Lasting P) {steps : Nat} {h : Stopped}
    {m : Machine} {c : Call} {d : Deed} (hm : P m.memory)
    (hstop : ∀ destination, h.stop = .input destination → 0 ≤ destination)
    (hd : m.deed steps h c = some d) : d.Sound P := by
  obtain ⟨last, hcourse, hlast⟩ := deed_course steps m c hstop
  obtain rfl := hlast d hd
  have hmemory := (hcourse.keeps (kept_of_lasting hP) hm).1
  refine ⟨hmemory, fun destination hy => ?_, fun m' hy => ?_⟩
  · rcases deed_yields hd with ⟨⟨fault | _ | stop, _⟩, rfl, hdestination⟩ | hcopy | hplain
    · cases hy
    · cases hy
    · cases hy
      exact hdestination destination rfl
    · rw [hcopy] at hy
      cases hy
    · exact (hplain _ hy).elim
  · rw [deed_machine hd hy]
    exact hP.copy hm

/-! ### Calls -/

namespace Store

variable {P : Memory → Prop} {s s' : Store}

/-- Every memory satisfies `P`, and every value that is asked for has an address to go to. -/
structure Sound (P : Memory → Prop) (s : Store) : Prop where
  memory : ∀ r, P (s.memory r)
  destination : ∀ q destination, (s.stopped q).stop = .input destination → 0 ≤ destination

theorem Sound.machine (h : s.Sound P) (r : MachineRef) : P (s.machine r).memory :=
  h.memory (s.frame r).memory

theorem Sound.setMachine (h : s.Sound P) (r : MachineRef) {m : Machine} (hm : P m.memory) :
    (s.setMachine r m).Sound P := by
  refine ⟨fun p => ?_, h.destination⟩
  rw [memory_setMachine_cases]
  split
  · exact hm
  · exact h.memory p

theorem Sound.addMachine (h : s.Sound P) {m : Machine} (hm : P m.memory) :
    (s.addMachine m).2.Sound P := by
  refine ⟨fun p => ?_, h.destination⟩
  rw [memory_addMachine]
  split
  · exact hm
  · exact h.memory p

theorem Sound.markAnswered (h : s.Sound P) (q : StopRef) : (s.markAnswered q).Sound P := by
  refine ⟨h.memory, fun p destination hp => h.destination p destination ?_⟩
  rcases stopped_markAnswered s q p with hsame | hsame <;> rwa [hsame] at hp

theorem Sound.attend (h : s.Sound P) (c : Call) : (s.attend c).Sound P := by
  cases c with
  | resume q value =>
      rw [Store.attend]
      split
      · exact h.markAnswered q
      · exact h
  | _ => exact h

theorem Sound.addressed (h : s.Sound P) (c : Call) (destination : Int)
    (hc : (c.addressed s.stopped).stop = .input destination) : 0 ≤ destination := by
  cases c with
  | resume q value => exact h.destination q destination hc
  | _ =>
      cases hc
      exact Int.le_refl 0

theorem Sound.carry (h : s.Sound P) (r : MachineRef) {d : Deed} (hd : d.Sound P) :
    (s.carry r d).2.Sound P := by
  have hset := h.setMachine r hd.memory
  rcases d with ⟨m, fault | y⟩
  · exact hset
  · cases y with
    | done | continues | number _ | numbers _ => exact hset
    | machine m' => exact hset.addMachine (hd.machine m' rfl)
    | stop stop =>
        refine ⟨hset.memory, fun q destination hq => ?_⟩
        have hq' : (((s.setMachine r m).addStop r stop).2.stopped q).stop = .input destination := hq
        rw [stopped_addStop] at hq'
        split at hq'
        · cases hq'
          exact hd.destination destination rfl
        · exact hset.destination q destination hq'

/-- **A call preserves what lasts.** -/
theorem Sound.perform (h : s.Sound P) (hP : Memory.Lasting P) {steps : Nat} {c : Call}
    {outcome : Except Fault Reply} (hp : s.perform steps c = some (outcome, s')) : s'.Sound P := by
  rw [perform_eq] at hp
  obtain ⟨d, hd, hcarry⟩ := Option.map_eq_some_iff.mp hp
  have hsound := (h.attend c).carry (c.subject s.stopped)
    (Machine.deed_sound hP (h.machine (c.subject s.stopped)) (h.addressed c) hd)
  rw [hcarry] at hsound
  exact hsound

end Store

/-! ### Stores that calls can lead to

A store begins empty, machines with a given origin are added to it, and calls are done.  What lasts
holds of everything in such a store, by induction on how it came about.
-/

/-- A machine as it is loaded, from values or from a program text. -/
inductive Machine.Loaded : Machine → Prop where
  | values {bounded : Bool} {values : List Int} {m : Machine}
      (h : ofValues bounded values = .ok m) : Loaded m
  | text {bounded : Bool} {text : String} {m : Machine}
      (h : ofText bounded text = .ok m) : Loaded m

theorem Machine.Loaded.eq_ofValues {m : Machine} (h : m.Loaded) :
    ∃ values bounded, m = { memory := .ofValues values, bounded } := by
  have hvalues : ∀ {bounded values}, ofValues bounded values = .ok m →
      ∃ values bounded, m = { memory := .ofValues values, bounded } := by
    intro bounded values h
    simp only [ofValues] at h
    split at h
    · cases h
    · cases h
      exact ⟨values, bounded, rfl⟩
  cases h with
  | values h => exact hvalues h
  | @text bounded text _ h =>
      rw [ofText] at h
      cases hparse : Program.parse text with
      | error fault => simp [hparse, bind, Except.bind] at h
      | ok values =>
          rw [hparse] at h
          exact hvalues h

theorem Machine.loaded_ofValues {values : List Int} (hvalues : values ≠ []) (bounded : Bool) :
    Loaded { memory := .ofValues values, bounded } := by
  refine .values (if_neg fun hempty => hvalues ?_)
  rw [Memory.extent_ofValues] at hempty
  exact List.length_eq_zero_iff.mp (Int.ofNat.inj hempty)

theorem Machine.Loaded.tight {m : Machine} (h : m.Loaded) : m.memory.Tight := by
  obtain ⟨values, bounded, rfl⟩ := h.eq_ofValues
  rfl

/-- What can come of machines with this origin, through calls of any kind and in any
order, failed ones included. -/
inductive Reachable (Origin : Machine → Prop) : Store → Prop where
  | empty : Reachable Origin .empty
  | add {s : Store} {m : Machine} (hs : Reachable Origin s) (hm : Origin m) :
      Reachable Origin (s.addMachine m).2
  | call {s s' : Store} {steps : Nat} {c : Call} {outcome : Except Fault Reply}
      (hs : Reachable Origin s) (hp : s.perform steps c = some (outcome, s')) : Reachable Origin s'

/-- **What lasts holds of every memory that calls can lead to.** -/
theorem Reachable.sound {P : Memory → Prop} {Origin : Machine → Prop} {s : Store}
    (hP : Memory.Lasting P) (horigin : ∀ m, Origin m → P m.memory) (h : Reachable Origin s) :
    s.Sound P := by
  induction h with
  | empty =>
      refine ⟨fun _ => hP.empty, fun q destination hq => ?_⟩
      cases hq
      exact Int.le_refl 0
  | add _ hm ih => exact ih.addMachine (horigin _ hm)
  | call _ hp ih => exact ih.perform hP hp

end Advent.Intcode
