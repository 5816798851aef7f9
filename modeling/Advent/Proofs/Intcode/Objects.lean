/-
What references show after a change.

Three changes are made to a store on behalf of a machine: the machine is brought into
another state, a stop of it is added, and a stop is marked as answered.  A machine or a
stop that is looked up afterwards is the one that was put there, or what it was before.
-/
import Advent.Intcode.Store

namespace Advent.Intcode

/-! ### Arrays with a default -/

theorem getD_setIfInBounds_self {α : Type} (xs : Array α) (d x : α) {i : Nat} (h : i < xs.size) :
    (xs.setIfInBounds i x).getD i d = x := by
  simp [Array.getElem?_setIfInBounds_self_of_lt h]

theorem getD_setIfInBounds_ne {α : Type} (xs : Array α) (d x : α) {i j : Nat} (h : i ≠ j) :
    (xs.setIfInBounds i x).getD j d = xs.getD j d := by
  simp [Array.getElem?_setIfInBounds_ne h]

theorem getD_setIfInBounds_cases {α : Type} (xs : Array α) (d x : α) (i j : Nat) :
    (xs.setIfInBounds i x).getD j d = if i = j ∧ j < xs.size then x else xs.getD j d := by
  by_cases hij : i = j
  · subst hij
    by_cases hi : i < xs.size
    · rw [getD_setIfInBounds_self xs d x hi, if_pos ⟨rfl, hi⟩]
    · rw [Array.setIfInBounds_eq_of_size_le (Nat.le_of_not_lt hi), if_neg fun h => hi h.2]
  · rw [getD_setIfInBounds_ne xs d x hij, if_neg fun h => hij h.1]

theorem setIfInBounds_getD {α : Type} (xs : Array α) (d : α) (i : Nat) :
    xs.setIfInBounds i (xs.getD i d) = xs := by
  refine Array.ext (by simp) fun j hj hj' => ?_
  rw [Array.getElem_setIfInBounds]
  by_cases hij : i = j
  · subst hij
    simp [hj']
  · rw [if_neg hij]

theorem getD_push {α : Type} (xs : Array α) (d x : α) (i : Nat) :
    (xs.push x).getD i d = if i = xs.size then x else xs.getD i d := by
  simp only [Array.getD_eq_getD_getElem?, Array.getElem?_push]
  by_cases h : i = xs.size <;> simp [h]

namespace Store

/-! ### Machines

A machine is a frame and the memory that the frame refers to.  To bring it into another state is to
change both, so another machine notices only if it shares the memory.
-/

/-- The machine is in the store, and so is its memory. -/
structure Holds (s : Store) (r : MachineRef) : Prop where
  frame : r.index < s.frames.size
  memory : (s.frame r).memory.index < s.memories.size

/-- The frame of the machine is set, and no other. -/
theorem frame_setMachine_cases (s : Store) (r : MachineRef) (m : Machine) (p : MachineRef) :
    (s.setMachine r m).frame p = if r.index = p.index ∧ p.index < s.frames.size then
      ⟨(s.frame r).memory, m.bounded, m.pc, m.relativeBase, m.started⟩ else s.frame p :=
  getD_setIfInBounds_cases s.frames default _ r.index p.index

/-- The memory of the machine is set, and no other. -/
theorem memory_setMachine_cases (s : Store) (r : MachineRef) (m : Machine) (p : MemoryRef) :
    (s.setMachine r m).memory p =
      if (s.frame r).memory.index = p.index ∧ p.index < s.memories.size then m.memory
      else s.memory p :=
  getD_setIfInBounds_cases s.memories default _ (s.frame r).memory.index p.index

theorem frame_setMachine {s : Store} {r : MachineRef} (h : s.Holds r) (m : Machine) :
    (s.setMachine r m).frame r =
      ⟨(s.frame r).memory, m.bounded, m.pc, m.relativeBase, m.started⟩ :=
  (frame_setMachine_cases s r m r).trans (if_pos ⟨rfl, h.frame⟩)

/-- The machine that was put in a place is found there. -/
theorem machine_setMachine {s : Store} {r : MachineRef} (h : s.Holds r) (m : Machine) :
    (s.setMachine r m).machine r = m := by
  have hmemory : (s.setMachine r m).memory (s.frame r).memory = m.memory :=
    (memory_setMachine_cases s r m _).trans (if_pos ⟨rfl, h.memory⟩)
  simp only [machine, frame_setMachine h, hmemory]

/-- A machine keeps its memory, whatever becomes of it. -/
theorem frame_setMachine_memory (s : Store) (r : MachineRef) (m : Machine) (p : MachineRef) :
    ((s.setMachine r m).frame p).memory = (s.frame p).memory := by
  rw [frame_setMachine_cases]
  by_cases h : r.index = p.index ∧ p.index < s.frames.size
  · rw [if_pos h]
    obtain rfl : r = p := congrArg MachineRef.mk h.1
    rfl
  · rw [if_neg h]

theorem Holds.setMachine {s : Store} {p : MachineRef} (h : s.Holds p) (r : MachineRef)
    (m : Machine) : (s.setMachine r m).Holds p := by
  refine ⟨?_, ?_⟩
  · simpa [Store.setMachine] using h.frame
  · rw [frame_setMachine_memory]
    simpa [Store.setMachine, setMemory] using h.memory

/-- A machine with another memory is left alone. -/
theorem machine_setMachine_ne {s : Store} {r p : MachineRef} (m : Machine)
    (h : (s.frame p).memory ≠ (s.frame r).memory) : (s.setMachine r m).machine p = s.machine p := by
  have hframe : (s.setMachine r m).frame p = s.frame p := by
    rw [frame_setMachine_cases, if_neg]
    intro hpr
    obtain rfl : r = p := congrArg MachineRef.mk hpr.1
    exact h rfl
  have hmemory : (s.setMachine r m).memory (s.frame p).memory = s.memory (s.frame p).memory := by
    rw [memory_setMachine_cases, if_neg]
    intro hsame
    exact h (congrArg MemoryRef.mk hsame.1).symm
  simp only [machine, hframe, hmemory]

/-- Putting a machine where it stands changes nothing. -/
theorem setMachine_self (s : Store) (r : MachineRef) : s.setMachine r (s.machine r) = s := by
  have hmemory := setIfInBounds_getD s.memories default (s.frame r).memory.index
  have hframe := setIfInBounds_getD s.frames default r.index
  simp only [setMachine, machine, memory, frame, setMemory] at hmemory hframe ⊢
  rw [hmemory, hframe]

theorem frame_addMachine (s : Store) (m : Machine) (r : MachineRef) :
    (s.addMachine m).2.frame r = if r.index = s.frames.size then
      ⟨⟨s.memories.size⟩, m.bounded, m.pc, m.relativeBase, m.started⟩ else s.frame r :=
  getD_push s.frames default _ r.index

theorem frame_addMachine_new (s : Store) (m : Machine) :
    (s.addMachine m).2.frame (s.addMachine m).1 =
      ⟨⟨s.memories.size⟩, m.bounded, m.pc, m.relativeBase, m.started⟩ :=
  (frame_addMachine s m _).trans (if_pos rfl)

/-- A new machine brings a new memory, and those that were there stay as they were. -/
theorem memory_addMachine (s : Store) (m : Machine) (r : MemoryRef) :
    (s.addMachine m).2.memory r = if r.index = s.memories.size then m.memory else s.memory r :=
  getD_push s.memories default _ r.index

theorem holds_addMachine (s : Store) (m : Machine) :
    (s.addMachine m).2.Holds (s.addMachine m).1 := by
  refine ⟨?_, ?_⟩
  · show s.frames.size < (s.frames.push _).size
    rw [Array.size_push]
    exact Nat.lt_succ_self _
  · rw [frame_addMachine_new]
    show s.memories.size < (s.memories.push _).size
    rw [Array.size_push]
    exact Nat.lt_succ_self _

theorem machine_addMachine (s : Store) (m : Machine) :
    (s.addMachine m).2.machine (s.addMachine m).1 = m := by
  unfold machine
  rw [frame_addMachine_new]
  simp only [memory_addMachine, if_true]

theorem frame_addMachine_old {s : Store} {p : MachineRef} (h : s.Holds p) (m : Machine) :
    (s.addMachine m).2.frame p = s.frame p :=
  (frame_addMachine s m p).trans (if_neg (Nat.ne_of_lt h.frame))

theorem Holds.addMachine {s : Store} {p : MachineRef} (h : s.Holds p) (m : Machine) :
    (s.addMachine m).2.Holds p := by
  refine ⟨?_, ?_⟩
  · show p.index < (s.frames.push _).size
    rw [Array.size_push]
    exact Nat.lt_succ_of_lt h.frame
  · rw [frame_addMachine_old h]
    show (s.frame p).memory.index < (s.memories.push _).size
    rw [Array.size_push]
    exact Nat.lt_succ_of_lt h.memory

/-- A machine that was there before is found as it was. -/
theorem machine_addMachine_old {s : Store} {p : MachineRef} (h : s.Holds p) (m : Machine) :
    (s.addMachine m).2.machine p = s.machine p := by
  have hmemory : (s.addMachine m).2.memory (s.frame p).memory = s.memory (s.frame p).memory :=
    (memory_addMachine s m _).trans (if_neg (Nat.ne_of_lt h.memory))
  simp only [machine, frame_addMachine_old h, hmemory]

/-! ### Stops -/

/-- A new stop has the reference after the last, and has not been answered. -/
theorem stopped_addStop (s : Store) (r : MachineRef) (stop : Stop) (q : StopRef) :
    (s.addStop r stop).2.stopped q =
      if q.index = s.stops.size then ⟨r, stop, false⟩ else s.stopped q :=
  getD_push s.stops default _ q.index

theorem stopped_addStop_new (s : Store) (r : MachineRef) (stop : Stop) :
    (s.addStop r stop).2.stopped (s.addStop r stop).1 = ⟨r, stop, false⟩ :=
  (stopped_addStop s r stop _).trans (if_pos rfl)

theorem stopped_addStop_old {s : Store} {q : StopRef} (h : q.index < s.stops.size) (r : MachineRef)
    (stop : Stop) : (s.addStop r stop).2.stopped q = s.stopped q :=
  (stopped_addStop s r stop q).trans (if_neg (Nat.ne_of_lt h))

theorem stopped_markAnswered_self {s : Store} {q : StopRef} (h : q.index < s.stops.size) :
    (s.markAnswered q).stopped q = { s.stopped q with answered := true } :=
  getD_setIfInBounds_self s.stops default _ h

theorem stopped_markAnswered_ne (s : Store) {p q : StopRef} (h : p ≠ q) :
    (s.markAnswered q).stopped p = s.stopped p := by
  refine getD_setIfInBounds_ne s.stops default _ fun hindex => h ?_
  cases p
  cases q
  exact congrArg StopRef.mk hindex.symm

/-- A mark changes nothing of a stop but the mark. -/
theorem stopped_markAnswered (s : Store) (q p : StopRef) :
    (s.markAnswered q).stopped p = s.stopped p ∨
      (s.markAnswered q).stopped p = { s.stopped p with answered := true } := by
  have hlookup := getD_setIfInBounds_cases s.stops default { s.stopped q with answered := true }
    q.index p.index
  by_cases hpq : q.index = p.index ∧ p.index < s.stops.size
  · obtain rfl : q = p := congrArg StopRef.mk hpq.1
    exact Or.inr (hlookup.trans (if_pos hpq))
  · exact Or.inl (hlookup.trans (if_neg hpq))

theorem stops_size_markAnswered (s : Store) (q : StopRef) :
    (s.markAnswered q).stops.size = s.stops.size :=
  Array.size_setIfInBounds

end Store

end Advent.Intcode
