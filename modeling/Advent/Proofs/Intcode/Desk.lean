/-
A part of a store is a value.

A party that works in a store has machines and stops on its desk, and names them by their
places there.  What lies on a desk can be written down without a reference: `View` lists
the machines with their memories, and the stops with the places of their machines.  Calls
can be carried out on a view, where nothing is shared, and `perform_view` says that a call
in the store comes to the same for the party whose desk it is.

The machines on a desk have memories of their own (`Fits`).  Another desk that shares no
memory with it is not touched: `Moves` says so of each change that is made to a store, and
hence of calls.
-/
import Mathlib.Data.List.Nodup
import Advent.Proofs.Intcode.Calls

namespace Advent.Intcode

/-! ### Calls under other names -/

/-- The call on the objects with these names. -/
def Call.rename (f : MachineRef → MachineRef) (g : StopRef → StopRef) : Call → Call
  | .step r => .step (f r)
  | .run r => .run (f r)
  | .resume q value => .resume (g q) value
  | .runWithInputs r inputs => .runWithInputs (f r) inputs
  | .get r a => .get (f r) a
  | .put r a value => .put (f r) a value
  | .copy r => .copy (f r)
  | .readWord r => .readWord (f r)
  | .readInput r mode => .readInput (f r) mode
  | .readOutput r mode => .readOutput (f r) mode
  | .readParams r word roles => .readParams (f r) word roles

/-- The call names one of so many machines, or one of so many stops. -/
def Call.Names (machines stops : Nat) : Call → Prop
  | .resume q _ => q.index < stops
  | .step r | .run r | .runWithInputs r _ | .get r _ | .put r _ _ | .copy r | .readWord r
  | .readInput r _ | .readOutput r _ | .readParams r _ _ => r.index < machines

instance (machines stops : Nat) (c : Call) : Decidable (c.Names machines stops) :=
  match c with
  | .resume q _ => Nat.decLt q.index stops
  | .step r | .run r | .runWithInputs r _ | .get r _ | .put r _ _ | .copy r | .readWord r
  | .readInput r _ | .readOutput r _ | .readParams r _ _ => Nat.decLt r.index machines

/-- What a call comes to at a machine does not depend on names. -/
theorem Machine.deed_rename (steps : Nat) (h : Stopped) (r : MachineRef) (m : Machine)
    (f : MachineRef → MachineRef) (g : StopRef → StopRef) (c : Call) :
    m.deed steps h (c.rename f g) = m.deed steps { h with machine := r } c := by
  cases c <;> rfl

/-! ### Views

In a view each machine has a memory of its own, so a call cannot reach from one into another.  The
operations have the names that they have in a store, and do the same to the lists.
-/

/-- Machines and stops as values; a stop names its machine by its place. -/
structure View where
  machines : List Machine
  stops : List Stopped

namespace View

/-- The machine at a place of the view. -/
def machine (v : View) (r : MachineRef) : Machine := v.machines.getD r.index default

/-- The stop at a place of the view. -/
def stopped (v : View) (q : StopRef) : Stopped := v.stops.getD q.index default

/-- Bring the machine at a place into another state. -/
def setMachine (v : View) (r : MachineRef) (m : Machine) : View :=
  { v with machines := v.machines.set r.index m }

/-- Mark a stop as answered. -/
def markAnswered (v : View) (q : StopRef) : View :=
  { v with stops := v.stops.set q.index { v.stopped q with answered := true } }

/-- Mark the stop that a call answers, unless it is refused. -/
def attend (v : View) : Call → View
  | .resume q _ => if (v.stopped q).refusal = none then v.markAnswered q else v
  | _ => v

/-- Add what a call of this machine yields. -/
def give (v : View) (r : MachineRef) : Except Fault Yield → Except Fault Reply × View
  | .error fault => (.error fault, v)
  | .ok .done => (.ok .done, v)
  | .ok .continues => (.ok .continues, v)
  | .ok (.number n) => (.ok (.number n), v)
  | .ok (.numbers ns) => (.ok (.numbers ns), v)
  | .ok (.stop stop) =>
    (.ok (.stopped ⟨v.stops.length⟩), { v with stops := v.stops ++ [⟨r, stop, false⟩] })
  | .ok (.machine m) =>
    (.ok (.machine ⟨v.machines.length⟩), { v with machines := v.machines ++ [m] })

/-- Carry out the deed of a call on the machine at a place. -/
def carry (v : View) (r : MachineRef) (d : Deed) : Except Fault Reply × View :=
  (v.setMachine r d.after).give r d.yields

/-- A call without references: every machine has a memory of its own. -/
def perform (steps : Nat) (v : View) (c : Call) : Option (Except Fault Reply × View) :=
  if c.Names v.machines.length v.stops.length then
    ((v.machine (c.subject v.stopped)).deed steps (c.addressed v.stopped) c).map
      ((v.attend c).carry (c.subject v.stopped))
  else none

end View

/-! ### Desks -/

/-- References to the machines and stops that a party works with. -/
structure Desk where
  machines : List MachineRef
  stops : List StopRef

namespace Desk

/-- The machine at a place. -/
def machine (d : Desk) (r : MachineRef) : MachineRef := d.machines.getD r.index default

/-- The stop at a place. -/
def stop (d : Desk) (q : StopRef) : StopRef := d.stops.getD q.index default

/-- The place of a machine. -/
def place (d : Desk) (r : MachineRef) : MachineRef := ⟨d.machines.idxOf r⟩

/-- Put what is new in a reply on the desk, and name it by its place. -/
def take (d : Desk) : Except Fault Reply → Except Fault Reply × Desk
  | .ok (.stopped q) => (.ok (.stopped ⟨d.stops.length⟩), { d with stops := d.stops ++ [q] })
  | .ok (.machine r) => (.ok (.machine ⟨d.machines.length⟩), { d with machines := d.machines ++ [r] })
  | reply => (reply, d)

/-- Do a call that names objects by their places on the desk. -/
def perform (steps : Nat) (d : Desk) (s : Store) (c : Call) :
    Option (Except Fault Reply × Desk × Store) :=
  if c.Names d.machines.length d.stops.length then
    (s.perform steps (c.rename d.machine d.stop)).map fun (reply, s) =>
      let (reply, d) := d.take reply
      (reply, d, s)
  else none

/-- A stop as it lies on the desk. -/
def entry (d : Desk) (s : Store) (q : StopRef) : Stopped :=
  { s.stopped q with machine := d.place (s.stopped q).machine }

/-- What lies on a desk. -/
def view (d : Desk) (s : Store) : View := ⟨d.machines.map s.machine, d.stops.map (d.entry s)⟩

/-- What lies on the desk is in the store, each machine with a memory of its own and each
stop with its machine. -/
structure Fits (d : Desk) (s : Store) : Prop where
  holds : ∀ r ∈ d.machines, s.Holds r
  memory : ∀ r ∈ d.machines, ∀ r' ∈ d.machines, (s.frame r).memory = (s.frame r').memory → r = r'
  held : ∀ q ∈ d.stops, q.index < s.stops.size
  machine : ∀ q ∈ d.stops, (s.stopped q).machine ∈ d.machines
  machines_nodup : d.machines.Nodup
  stops_nodup : d.stops.Nodup

/-- No memory belongs to machines on both desks. -/
def Apart (d e : Desk) (s : Store) : Prop :=
  ∀ r ∈ d.machines, ∀ r' ∈ e.machines, (s.frame r).memory ≠ (s.frame r').memory

/-- A change of the store, and of what lies on one desk, that no other desk notices.  No
machine gets another memory by it. -/
structure Moves (d : Desk) (s : Store) (d' : Desk) (s' : Store) : Prop where
  fits : d'.Fits s'
  kept : ∀ r, s.Holds r → s'.Holds r ∧ (s'.frame r).memory = (s.frame r).memory
  others : ∀ e : Desk, e.Fits s → e.Apart d s → e.Fits s' ∧ e.Apart d' s' ∧ e.view s' = e.view s

theorem Moves.trans {d d' d'' : Desk} {s s' s'' : Store} (h : d.Moves s d' s')
    (h' : d'.Moves s' d'' s'') : d.Moves s d'' s'' := by
  refine ⟨h'.fits, fun r hr => ?_, fun e he hapart => ?_⟩
  · obtain ⟨hr', hmemory⟩ := h.kept r hr
    obtain ⟨hr'', hmemory'⟩ := h'.kept r hr'
    exact ⟨hr'', hmemory'.trans hmemory⟩
  · obtain ⟨he', hapart', hview⟩ := h.others e he hapart
    obtain ⟨he'', hapart'', hview'⟩ := h'.others e he' hapart'
    exact ⟨he'', hapart'', hview'.trans hview⟩

variable {d : Desk} {s : Store} {r : MachineRef}

/-! ### Changes of one machine or stop

Each change of the store comes with three lemmas: what lies on the desk still fits, no other desk
notices, and the view changes as if nothing were shared.
-/

theorem map_eq_set {α β : Type} {f g : α → β} {l : List α} (hl : l.Nodup) {k : Nat} {x : α}
    (hk : l[k]? = some x) (hother : ∀ y ∈ l, y ≠ x → g y = f y) :
    l.map g = (l.map f).set k (g x) := by
  refine List.ext_getElem? fun i => ?_
  rw [List.getElem?_map, List.getElem?_set, List.getElem?_map, List.length_map]
  obtain ⟨hlt, hx⟩ := List.getElem?_eq_some_iff.mp hk
  by_cases hik : k = i
  · subst hik
    rw [if_pos rfl, if_pos hlt, hk]
    rfl
  · rw [if_neg hik]
    cases hi : l[i]? with
    | none => rfl
    | some y =>
        obtain ⟨hlt', hy⟩ := List.getElem?_eq_some_iff.mp hi
        refine congrArg some (hother y (List.mem_of_getElem? hi) fun hyx => hik ?_)
        exact ((List.Nodup.getElem_inj_iff hl).mp (hx.trans (hyx ▸ hy).symm))

theorem Fits.setMachine (hd : d.Fits s) (r : MachineRef) (m : Machine) : d.Fits (s.setMachine r m) := by
  refine ⟨fun p hp => (hd.holds p hp).setMachine r m, fun p hp p' hp' hsame => ?_, hd.held, hd.machine,
    hd.machines_nodup, hd.stops_nodup⟩
  rw [Store.frame_setMachine_memory, Store.frame_setMachine_memory] at hsame
  exact hd.memory p hp p' hp' hsame

/-- No other desk notices when a machine on this one changes. -/
theorem moves_setMachine (hd : d.Fits s) (hr : r ∈ d.machines) (m : Machine) :
    d.Moves s d (s.setMachine r m) := by
  refine ⟨hd.setMachine r m, fun p hp => ⟨hp.setMachine r m, Store.frame_setMachine_memory s r m p⟩,
    fun e he hapart => ⟨he.setMachine r m, fun p hp p' hp' => ?_, ?_⟩⟩
  · rw [Store.frame_setMachine_memory, Store.frame_setMachine_memory]
    exact hapart p hp p' hp'
  · have hmachines : e.machines.map (s.setMachine r m).machine = e.machines.map s.machine :=
      List.map_congr_left fun p hp => Store.machine_setMachine_ne m (hapart p hp r hr)
    show View.mk _ _ = View.mk _ _
    rw [hmachines]
    rfl

/-- The view of a store with a machine changed is the view with this machine changed. -/
theorem view_setMachine (hd : d.Fits s) {k : MachineRef} (hk : d.machines[k.index]? = some r)
    (m : Machine) : d.view (s.setMachine r m) = (d.view s).setMachine k m := by
  have hr : r ∈ d.machines := List.mem_of_getElem? hk
  have hmachines := map_eq_set (f := s.machine) (g := (s.setMachine r m).machine) hd.machines_nodup hk
    fun p hp hne => Store.machine_setMachine_ne m fun hsame => hne (hd.memory p hp r hr hsame)
  rw [Store.machine_setMachine (hd.holds r hr)] at hmachines
  show View.mk _ _ = View.mk _ _
  rw [hmachines]
  rfl

variable {q : StopRef}

theorem Fits.markAnswered (hd : d.Fits s) (q : StopRef) : d.Fits (s.markAnswered q) := by
  refine ⟨fun p hp => ⟨(hd.holds p hp).frame, (hd.holds p hp).memory⟩, hd.memory, fun p hp => ?_,
    fun p hp => ?_, hd.machines_nodup, hd.stops_nodup⟩
  · rw [Store.stops_size_markAnswered]
    exact hd.held p hp
  · have hmachine := hd.machine p hp
    rcases Store.stopped_markAnswered s q p with hsame | hsame <;> rwa [hsame]

/-- Desks apart have no stop in common. -/
theorem Fits.stop_ne {e : Desk} (he : e.Fits s) (hd : d.Fits s) (hapart : e.Apart d s)
    {p : StopRef} (hp : p ∈ e.stops) (hq : q ∈ d.stops) : p ≠ q := by
  rintro rfl
  exact hapart _ (he.machine p hp) _ (hd.machine p hq) rfl

theorem entry_congr {e : Desk} {s' : Store} {p : StopRef} (h : s'.stopped p = s.stopped p) :
    e.entry s' p = e.entry s p := by
  rw [entry, entry, h]

/-- No other desk notices when a stop on this one is answered. -/
theorem moves_markAnswered (hd : d.Fits s) (hq : q ∈ d.stops) : d.Moves s d (s.markAnswered q) := by
  refine ⟨hd.markAnswered q, fun p hp => ⟨⟨hp.frame, hp.memory⟩, rfl⟩,
    fun e he hapart => ⟨he.markAnswered q, hapart, ?_⟩⟩
  refine congrArg (View.mk _) (List.map_congr_left fun p hp => entry_congr ?_)
  exact Store.stopped_markAnswered_ne s (he.stop_ne hd hapart hp hq)

theorem view_stopped {k : StopRef} (hk : d.stops[k.index]? = some q) :
    (d.view s).stopped k = d.entry s q := by
  simp [View.stopped, view, List.getD_eq_getElem?_getD, hk]

theorem view_markAnswered (hd : d.Fits s) {k : StopRef} (hk : d.stops[k.index]? = some q) :
    d.view (s.markAnswered q) = (d.view s).markAnswered k := by
  have hq : q ∈ d.stops := List.mem_of_getElem? hk
  have hstops := map_eq_set (f := d.entry s) (g := d.entry (s.markAnswered q)) hd.stops_nodup hk
    fun p _ hne => entry_congr (Store.stopped_markAnswered_ne s hne)
  have hmarked : d.entry (s.markAnswered q) q = { d.entry s q with answered := true } := by
    rw [entry, Store.stopped_markAnswered_self (hd.held q hq)]
    rfl
  rw [hmarked, ← view_stopped hk] at hstops
  exact congrArg (View.mk _) hstops

/-! ### New stops -/

/-- Machines lie on a desk once, so each is found where it lies. -/
theorem place_of {k : MachineRef} (hd : d.Fits s) (hk : d.machines[k.index]? = some r) :
    d.place r = k := by
  obtain ⟨hlt, hr⟩ := List.getElem?_eq_some_iff.mp hk
  refine congrArg MachineRef.mk ?_
  rw [← hr]
  exact hd.machines_nodup.idxOf_getElem k.index hlt

theorem Fits.addStop (hd : d.Fits s) (r : MachineRef) (stop : Stop) :
    d.Fits (s.addStop r stop).2 := by
  refine ⟨fun p hp => ⟨(hd.holds p hp).frame, (hd.holds p hp).memory⟩, hd.memory, fun q hq => ?_,
    fun q hq => ?_, hd.machines_nodup, hd.stops_nodup⟩
  · show q.index < (s.stops.push _).size
    rw [Array.size_push]
    exact Nat.lt_succ_of_lt (hd.held q hq)
  · rw [Store.stopped_addStop_old (hd.held q hq)]
    exact hd.machine q hq

/-- No other desk notices a new stop of a machine on this one. -/
theorem moves_addStop (hd : d.Fits s) (hr : r ∈ d.machines) (stop : Stop) :
    d.Moves s { d with stops := d.stops ++ [(s.addStop r stop).1] } (s.addStop r stop).2 := by
  have hd' := hd.addStop r stop
  refine ⟨⟨hd'.holds, hd'.memory, fun q hq => ?_, fun q hq => ?_, hd.machines_nodup, ?_⟩,
    fun p hp => ⟨⟨hp.frame, hp.memory⟩, rfl⟩,
    fun e he hapart => ⟨he.addStop r stop, hapart, ?_⟩⟩
  · rcases List.mem_append.mp hq with hq | hq
    · exact hd'.held q hq
    · rw [List.mem_singleton.mp hq]
      show s.stops.size < (s.stops.push _).size
      rw [Array.size_push]
      exact Nat.lt_succ_self _
  · rcases List.mem_append.mp hq with hq | hq
    · exact hd'.machine q hq
    · rw [List.mem_singleton.mp hq, Store.stopped_addStop_new]
      exact hr
  · -- the stops on the desk were in the store before
    refine List.nodup_append.mpr ⟨hd.stops_nodup, List.nodup_singleton _, fun q hq q' hq' hsame => ?_⟩
    have hheld := hd.held q hq
    rw [hsame, List.mem_singleton.mp hq'] at hheld
    exact Nat.lt_irrefl _ hheld
  · exact congrArg (View.mk _) (List.map_congr_left fun q hq =>
      entry_congr (Store.stopped_addStop_old (he.held q hq) r stop))

theorem view_addStop (hd : d.Fits s) {k : MachineRef} (hk : d.machines[k.index]? = some r) (stop : Stop) :
    Desk.view { d with stops := d.stops ++ [(s.addStop r stop).1] } (s.addStop r stop).2 =
      { d.view s with stops := (d.view s).stops ++ [⟨k, stop, false⟩] } := by
  have hold : d.stops.map (d.entry (s.addStop r stop).2) = d.stops.map (d.entry s) :=
    List.map_congr_left fun q hq => entry_congr (Store.stopped_addStop_old (hd.held q hq) r stop)
  have hnew : d.entry (s.addStop r stop).2 (s.addStop r stop).1 = ⟨k, stop, false⟩ := by
    rw [entry, Store.stopped_addStop_new, place_of hd hk]
  refine congrArg (View.mk _) ?_
  show (d.stops ++ [(s.addStop r stop).1]).map (d.entry (s.addStop r stop).2) = _
  rw [List.map_append, hold, List.map_singleton, hnew]
  rfl

/-! ### New machines -/

theorem Fits.addMachine (hd : d.Fits s) (m : Machine) : d.Fits (s.addMachine m).2 := by
  refine ⟨fun p hp => (hd.holds p hp).addMachine m, fun p hp p' hp' hsame => ?_, hd.held, hd.machine,
    hd.machines_nodup, hd.stops_nodup⟩
  rw [Store.frame_addMachine_old (hd.holds p hp), Store.frame_addMachine_old (hd.holds p' hp')] at hsame
  exact hd.memory p hp p' hp' hsame

/-- A new machine has a memory that no other has. -/
theorem Fits.memory_ne (hd : d.Fits s) (m : Machine) {p : MachineRef} (hp : p ∈ d.machines) :
    ((s.addMachine m).2.frame p).memory ≠
      ((s.addMachine m).2.frame (s.addMachine m).1).memory := by
  rw [Store.frame_addMachine_old (hd.holds p hp), Store.frame_addMachine_new]
  intro hsame
  exact Nat.ne_of_lt (hd.holds p hp).memory (congrArg MemoryRef.index hsame)

/-- No other desk notices a new machine. -/
theorem moves_addMachine (hd : d.Fits s) (m : Machine) :
    d.Moves s { d with machines := d.machines ++ [(s.addMachine m).1] } (s.addMachine m).2 := by
  have hd' := hd.addMachine m
  have hnew : ∀ p ∈ d.machines, p ≠ (s.addMachine m).1 := by
    rintro p hp rfl
    exact hd.memory_ne m hp rfl
  refine ⟨⟨fun p hp => ?_, fun p hp p' hp' hsame => ?_, hd.held, fun q hq => ?_, ?_, hd.stops_nodup⟩,
    fun p hp => ⟨hp.addMachine m, congrArg Frame.memory (Store.frame_addMachine_old hp m)⟩,
    fun e he hapart => ⟨he.addMachine m, fun p hp p' hp' => ?_, ?_⟩⟩
  · rcases List.mem_append.mp hp with hp | hp
    · exact hd'.holds p hp
    · rw [List.mem_singleton.mp hp]
      exact Store.holds_addMachine s m
  · rcases List.mem_append.mp hp with hp | hp <;> rcases List.mem_append.mp hp' with hp' | hp'
    · exact hd'.memory p hp p' hp' hsame
    · rw [List.mem_singleton.mp hp'] at hsame
      exact absurd hsame (hd.memory_ne m hp)
    · rw [List.mem_singleton.mp hp] at hsame
      exact absurd hsame.symm (hd.memory_ne m hp')
    · rw [List.mem_singleton.mp hp, List.mem_singleton.mp hp']
  · exact List.mem_append_left _ (hd.machine q hq)
  · refine List.nodup_append.mpr ⟨hd.machines_nodup, List.nodup_singleton _, fun p hp p' hp' => ?_⟩
    rw [List.mem_singleton.mp hp']
    exact hnew p hp
  · rcases List.mem_append.mp hp' with hp' | hp'
    · rw [Store.frame_addMachine_old (he.holds p hp), Store.frame_addMachine_old (hd.holds p' hp')]
      exact hapart p hp p' hp'
    · rw [List.mem_singleton.mp hp']
      exact he.memory_ne m hp
  · have hmachines : e.machines.map (s.addMachine m).2.machine = e.machines.map s.machine :=
      List.map_congr_left fun p hp => Store.machine_addMachine_old (he.holds p hp) m
    show View.mk _ _ = View.mk _ _
    rw [hmachines]
    rfl

theorem view_addMachine (hd : d.Fits s) (m : Machine) :
    Desk.view { d with machines := d.machines ++ [(s.addMachine m).1] } (s.addMachine m).2 =
      { d.view s with machines := (d.view s).machines ++ [m] } := by
  have hmachines : d.machines.map (s.addMachine m).2.machine = d.machines.map s.machine :=
    List.map_congr_left fun p hp => Store.machine_addMachine_old (hd.holds p hp) m
  have hstops : d.stops.map
      (Desk.entry { d with machines := d.machines ++ [(s.addMachine m).1] } (s.addMachine m).2) =
        d.stops.map (d.entry s) := by
    refine List.map_congr_left fun q hq => ?_
    have hplace : (d.machines ++ [(s.addMachine m).1]).idxOf (s.stopped q).machine =
        d.machines.idxOf (s.stopped q).machine := List.idxOf_append_of_mem (hd.machine q hq)
    exact congrArg (fun i => { s.stopped q with machine := ⟨i⟩ }) hplace
  show View.mk ((d.machines ++ [(s.addMachine m).1]).map (s.addMachine m).2.machine) _ = View.mk _ _
  rw [List.map_append, hmachines, List.map_singleton, Store.machine_addMachine]
  exact congrArg (View.mk _) hstops

/-! ### Calls -/

theorem Moves.refl (hd : d.Fits s) : d.Moves s d s :=
  ⟨hd, fun _ hr => ⟨hr, rfl⟩, fun _ he hapart => ⟨he, hapart, rfl⟩⟩

theorem machine_at {k : MachineRef} (hk : k.index < d.machines.length) :
    d.machines[k.index]? = some (d.machine k) := by
  simp [machine, List.getD_eq_getElem?_getD, hk]

theorem stop_at {k : StopRef} (hk : k.index < d.stops.length) :
    d.stops[k.index]? = some (d.stop k) := by
  simp [stop, List.getD_eq_getElem?_getD, hk]

theorem view_machine {k : MachineRef} (hk : d.machines[k.index]? = some r) :
    (d.view s).machine k = s.machine r := by
  simp [View.machine, view, List.getD_eq_getElem?_getD, hk]

/-- A machine is found at its place. -/
theorem machine_place (hr : r ∈ d.machines) : d.machines[(d.place r).index]? = some r := by
  have hlt := List.idxOf_lt_length_of_mem hr
  exact List.getElem?_eq_some_iff.mpr ⟨hlt, List.getElem_idxOf hlt⟩

section Named

variable {c : Call} (hc : c.Names d.machines.length d.stops.length)

include hc

/-- The machine that a call concerns lies at its place on the desk. -/
theorem subject_rename (hd : d.Fits s) :
    d.machines[(c.subject (d.view s).stopped).index]? =
      some ((c.rename d.machine d.stop).subject s.stopped) := by
  cases c with
  | resume q value =>
      have hq := stop_at (k := q) hc
      show d.machines[((d.view s).stopped q).machine.index]? = _
      rw [view_stopped hq]
      exact machine_place (hd.machine _ (List.mem_of_getElem? hq))
  | _ => exact machine_at hc

/-- The stop that is answered lies on the desk, under another reference to its machine. -/
theorem addressed_rename :
    ∃ r, c.addressed (d.view s).stopped =
      { (c.rename d.machine d.stop).addressed s.stopped with machine := r } := by
  cases c with
  | resume q value => exact ⟨_, view_stopped (stop_at hc)⟩
  | _ => exact ⟨_, rfl⟩

theorem attend_rename (hd : d.Fits s) :
    d.Moves s d (s.attend (c.rename d.machine d.stop)) ∧
      d.view (s.attend (c.rename d.machine d.stop)) = (d.view s).attend c := by
  cases c with
  | resume q value =>
      have hq := stop_at (k := q) hc
      have hrefusal : ((d.view s).stopped q).refusal = (s.stopped (d.stop q)).refusal := by
        rw [view_stopped hq]
        rfl
      rw [Call.rename, Store.attend, View.attend, hrefusal]
      split
      · exact ⟨moves_markAnswered hd (List.mem_of_getElem? hq), view_markAnswered hd hq⟩
      · exact ⟨.refl hd, rfl⟩
  | _ => exact ⟨.refl hd, rfl⟩

end Named

/-- A deed carried out in the store is the deed carried out on the view. -/
theorem carry_view {k : MachineRef} (hd : d.Fits s) (hk : d.machines[k.index]? = some r) (x : Deed) :
    d.Moves s (d.take (s.carry r x).1).2 (s.carry r x).2 ∧
      ((d.take (s.carry r x).1).1, (d.take (s.carry r x).1).2.view (s.carry r x).2) =
        (d.view s).carry k x := by
  have hr : r ∈ d.machines := List.mem_of_getElem? hk
  have hmoves := moves_setMachine hd hr x.after
  have hview := view_setMachine hd hk x.after
  rw [View.carry, ← hview]
  rcases x with ⟨m, fault | y⟩
  · exact ⟨hmoves, rfl⟩
  · cases y with
    | done | continues | number _ | numbers _ => exact ⟨hmoves, rfl⟩
    | stop stop =>
        refine ⟨hmoves.trans (moves_addStop hmoves.fits hr stop), ?_⟩
        have hstop := view_addStop hmoves.fits hk stop
        have hlength : d.stops.length = (d.view (s.setMachine r m)).stops.length := by
          rw [view, List.length_map]
        exact Prod.ext (congrArg (fun i => Except.ok (Reply.stopped ⟨i⟩)) hlength) hstop
    | machine m' =>
        refine ⟨hmoves.trans (moves_addMachine hmoves.fits m'), ?_⟩
        have hmachine := view_addMachine hmoves.fits m'
        have hlength : d.machines.length = (d.view (s.setMachine r m)).machines.length := by
          rw [view, List.length_map]
        exact Prod.ext (congrArg (fun i => Except.ok (Reply.machine ⟨i⟩)) hlength) hmachine

/-- **A call at a desk is a call on what lies there**, and moves nothing else. -/
theorem perform_view (hd : d.Fits s) (steps : Nat) (c : Call) :
    (d.perform steps s c).map (fun x => (x.1, x.2.1.view x.2.2)) = (d.view s).perform steps c ∧
      ∀ x, d.perform steps s c = some x → d.Moves s x.2.1 x.2.2 := by
  have hmachines : (d.view s).machines.length = d.machines.length := List.length_map _
  have hstops : (d.view s).stops.length = d.stops.length := List.length_map _
  rw [perform, View.perform, hmachines, hstops]
  by_cases hc : c.Names d.machines.length d.stops.length
  · rw [if_pos hc, if_pos hc]
    obtain ⟨hmoves, hview⟩ := attend_rename hc hd
    obtain ⟨p, haddressed⟩ := addressed_rename (s := s) hc
    have hk := subject_rename hc hd
    rw [Store.perform_eq, Machine.deed_rename steps _ p _ d.machine d.stop c, view_machine hk,
      haddressed, ← hview]
    cases Machine.deed steps _ (s.machine _) c with
    | none => exact ⟨rfl, fun x hx => by cases hx⟩
    | some deed =>
        obtain ⟨hmoves', hview'⟩ := carry_view hmoves.fits hk deed
        refine ⟨congrArg some hview', fun x hx => ?_⟩
        cases hx
        exact hmoves.trans hmoves'
  · rw [if_neg hc, if_neg hc]
    exact ⟨rfl, fun x hx => by cases hx⟩

end Desk

end Advent.Intcode
