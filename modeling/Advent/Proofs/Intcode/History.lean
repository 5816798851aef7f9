/-
What holds of a machine at every moment of its life.

A `History` is what became of some machines through calls of any kind, with a `Log` of it: for
each memory, how it was when it was made, and every write to it since then.  `History.memory`
says that nothing but those writes has changed it.

A machine that was made without a negative address stays in range: its program counter is not
negative, no cell of its memory has a negative address, and the extent of the memory is one
past its highest address.  This holds at every moment, `inRange_kept`, so it holds after every
call, and at every instruction that a call carries out.  Where it holds no instruction lies at
or past the extent.
-/
import Advent.Proofs.Intcode.Bounded
import Advent.Proofs.Intcode.Reachable

namespace Advent.Intcode

theorem Memory.grounded_lasting : Memory.Lasting Memory.Grounded := by
  have hempty : ∀ a, a ∉ Memory.empty.cells := fun a => by simp [Memory.empty, Memory.ofMap]
  refine ⟨(grounded_iff _).mpr ⟨rfl, fun a ha => absurd ha (hempty a)⟩, fun hm ha value => ?_,
    fun hm => ?_⟩
  · obtain ⟨htight, hnonneg⟩ := (grounded_iff _).mp hm
    refine (grounded_iff _).mpr ⟨put_tight htight ha value, fun b hb => ?_⟩
    rcases (mem_put _ _ _ _).mp hb with rfl | hb
    · exact ha
    · exact hnonneg b hb
  · rw [copy_of_tight ((grounded_iff _).mp hm).1]
    exact hm

/-- Cells that were loaded and then written to, without a negative address among them. -/
theorem Memory.putAll_grounded {cells : Std.TreeMap Int Int} (writes : List (Int × Int))
    (h : ∀ a, a ∈ ((ofMap cells).putAll writes).cells → 0 ≤ a) :
    ((ofMap cells).putAll writes).Grounded := by
  have hloaded : (ofMap cells).Tight := rfl
  refine (grounded_iff _).mpr ⟨tight_lasting.putAll hloaded writes fun w hw => ?_, h⟩
  exact h w.1 ((mem_putAll writes _ _).mpr (Or.inr ⟨w, hw, rfl⟩))

namespace Machine

/-- The program counter and the memory are as they are at every moment. -/
structure InRange (m : Machine) : Prop where
  pc : 0 ≤ m.pc
  memory : m.memory.Grounded

/-- The program counter moves up, or it is set to a target that is not negative. -/
theorem exec_pc_nonneg {m : Machine} (h : 0 ≤ m.pc) : 0 ≤ m.exec.2.pc := by
  have hadvance : ∀ n : Nat, 0 ≤ (m.advance n).pc := by
    intro n
    rw [advance_pc]
    omega
  rw [exec_eq]
  rcases m.decode with ⟨fault | e, n⟩
  · exact hadvance n
  · cases e with
    | jump target =>
        simp only [apply]
        cases hjump : (m.advance n).jumpTarget target with
        | error fault => exact hadvance n
        | ok a =>
            obtain ⟨hadmits, rfl⟩ := (jumpTarget_ok_iff _ _ _).mp hjump
            exact hadmits.1
    | _ => exact hadvance n

/-- **A machine in range stays so at every moment.** -/
theorem inRange_kept : Kept InRange where
  exec h := ⟨exec_pc_nonneg h.pc, (kept_of_lasting Memory.grounded_lasting).exec h.memory⟩
  handed h ha value := ⟨h.pc, Memory.grounded_lasting.put h.memory ha value⟩
  marked h _ := ⟨h.pc, h.memory⟩
  read h count := ⟨by rw [advance_pc]; have := h.pc; omega, h.memory⟩

/-- **An instruction that completes lies below the extent.** -/
theorem InRange.lt_extent {m m' : Machine} {outcome : Option Stop} (h : m.InRange)
    (hexec : m.exec = (.ok outcome, m')) : m.pc < m.memory.extent := by
  refine Int.not_le.mp fun hpast => ?_
  rw [exec_past_extent h.memory.wf hpast] at hexec
  cases hexec

/-- A machine as it is made: from values, from a program text, as a file may hold it, or over a
memory in which no cell has a negative address. -/
inductive Made : Machine → Prop where
  | loaded {m : Machine} (h : m.Loaded) : Made m
  | onMemory (cells : Std.TreeMap Int Int) (writes : List (Int × Int)) (bounded : Bool)
      (hcells : ∀ a, a ∈ ((Memory.ofMap cells).putAll writes).cells → 0 ≤ a) :
      Made { memory := (Memory.ofMap cells).putAll writes, bounded }

theorem Made.inRange {m : Machine} (h : m.Made) : m.InRange := by
  cases h with
  | loaded h =>
      obtain ⟨values, bounded, rfl⟩ := h.eq_ofValues
      have hnonneg : ∀ a, a ∈ (Memory.ofValues values).cells → 0 ≤ a :=
        fun a ha => ((Memory.mem_ofValues values a).mp ha).1
      exact ⟨Int.le_refl 0, (Memory.grounded_iff _).mpr ⟨rfl, hnonneg⟩⟩
  | onMemory cells writes bounded hcells =>
      exact ⟨Int.le_refl 0, Memory.putAll_grounded writes hcells⟩

end Machine

/-! ### Program counters in a store

What holds of memories holds in every store that calls can lead to, and that was shown without a
look at program counters.  They are kept beside the memories, so they are followed on their own.
-/

namespace Store

variable {s s' : Store}

theorem carry_pc_nonneg (h : ∀ p, 0 ≤ (s.frame p).pc) (r : MachineRef) {d : Deed}
    (hafter : 0 ≤ d.after.pc) (hmachine : ∀ m, d.yields = .ok (.machine m) → 0 ≤ m.pc)
    (p : MachineRef) : 0 ≤ ((s.carry r d).2.frame p).pc := by
  have hset : ∀ p, 0 ≤ ((s.setMachine r d.after).frame p).pc := by
    intro p
    rw [frame_setMachine_cases]
    split
    · exact hafter
    · exact h p
  rcases d with ⟨m, fault | y⟩
  · exact hset p
  · cases y with
    | machine m' =>
        show 0 ≤ (((s.setMachine r m).addMachine m').2.frame p).pc
        rw [frame_addMachine]
        split
        · exact hmachine m' rfl
        · exact hset p
    | _ => exact hset p

/-- The memory of the machine that a deed concerns is changed, and no other. -/
theorem memory_carry (r : MachineRef) (d : Deed) {p : MemoryRef} (hp : p.index < s.memories.size) :
    (s.carry r d).2.memory p = if p = (s.frame r).memory then d.after.memory else s.memory p := by
  have hset : (s.setMachine r d.after).memory p =
      if p = (s.frame r).memory then d.after.memory else s.memory p := by
    rw [memory_setMachine_cases]
    by_cases hsame : p = (s.frame r).memory
    · rw [if_pos ⟨congrArg MemoryRef.index hsame.symm, hp⟩, if_pos hsame]
    · rw [if_neg fun h => hsame (congrArg MemoryRef.mk h.1.symm), if_neg hsame]
  rcases d with ⟨m, fault | y⟩
  · exact hset
  · cases y with
    | machine m' =>
        have hsize : (s.setMachine r m).memories.size = s.memories.size := by
          simp [setMachine, setMemory]
        refine Eq.trans ?_ hset
        refine (memory_addMachine _ m' p).trans (if_neg ?_)
        rw [hsize]
        exact Nat.ne_of_lt hp
    | _ => exact hset

/-- What a call does to the machine that it concerns. -/
def moments (steps : Nat) (s : Store) (c : Call) : List Moment :=
  (s.machine (c.subject s.stopped)).moments steps (c.addressed s.stopped) c

/-- The memory of the machine that a call concerns. -/
def touched (s : Store) (c : Call) : MemoryRef := (s.frame (c.subject s.stopped)).memory

end Store

/-! ### Histories

A log is kept from outside: the store knows nothing of it.  Each call enters what its moments write,
and every memory that is new begins a record.
-/

/-- A memory as it was when it was made, and what was written to it since, in order, each value
with its address. -/
structure Record where
  first : Memory
  writes : List (Int × Int)

/-- The maximum of the extent that the memory had at first and of one past every address of
these writes. -/
def Record.extentAfter (r : Record) (writes : List (Int × Int)) : Int :=
  (writes.map fun w => w.1 + 1).foldl max r.first.extent

/-- A record of each memory. -/
abbrev Log := MemoryRef → Record

namespace Log

/-- The log of a store without a memory. -/
def empty : Log := fun _ => ⟨.empty, []⟩

/-- Add writes to the record of a memory. -/
def enter (log : Log) (p : MemoryRef) (writes : List (Int × Int)) : Log := fun q =>
  if q = p then { log q with writes := (log q).writes ++ writes } else log q

/-- Begin a record of every memory that is new. -/
def extend (log : Log) (s s' : Store) : Log := fun q =>
  if q.index < s.memories.size then log q else ⟨s'.memory q, []⟩

end Log

/-- What can come of machines with this origin through calls of any kind and in any order,
failed ones included, with the log of it. -/
inductive History (Origin : Machine → Prop) : Store → Log → Prop where
  | empty : History Origin .empty .empty
  | add {s : Store} {log : Log} {m : Machine} (hs : History Origin s log) (hm : Origin m) :
      History Origin (s.addMachine m).2 (log.extend s (s.addMachine m).2)
  | call {s s' : Store} {log : Log} {steps : Nat} {c : Call} {outcome : Except Fault Reply}
      (hs : History Origin s log) (hp : s.perform steps c = some (outcome, s')) :
      History Origin s'
        ((log.enter (s.touched c) ((s.moments steps c).flatMap Moment.writes)).extend s s')

variable {Origin : Machine → Prop} {s s' : Store} {log : Log}

theorem History.reachable (h : History Origin s log) : Reachable Origin s := by
  induction h with
  | empty => exact .empty
  | add _ hm ih => exact .add ih hm
  | call _ hp ih => exact .call ih hp

theorem Reachable.sound_grounded (h : Reachable Origin s)
    (horigin : ∀ m, Origin m → m.InRange) : s.Sound Memory.Grounded :=
  h.sound Memory.grounded_lasting fun m hm => (horigin m hm).memory

/-- A call does to its machine what its moments do, and then stores it. -/
theorem Store.Sound.course (h : s.Sound Memory.Grounded) (steps : Nat) (c : Call) :
    ∃ last, Machine.Course (s.machine (c.subject s.stopped)) (s.moments steps c) last ∧
      ∀ outcome s', s.perform steps c = some (outcome, s') →
        ∃ d, (s.machine (c.subject s.stopped)).deed steps (c.addressed s.stopped) c = some d ∧
          d.after = last ∧ (s.attend c).carry (c.subject s.stopped) d = (outcome, s') := by
  obtain ⟨last, hcourse, hlast⟩ :=
    Machine.deed_course steps (s.machine (c.subject s.stopped)) c (h.addressed c)
  refine ⟨last, hcourse, fun outcome s' hp => ?_⟩
  rw [perform_eq] at hp
  obtain ⟨d, hd, hcarry⟩ := Option.map_eq_some_iff.mp hp
  exact ⟨d, hd, hlast d hd, hcarry⟩

section Calls

variable (h : s.Sound Memory.Grounded) {steps : Nat} {c : Call} {outcome : Except Fault Reply}

include h

/-- A call carries out instructions of machines in range only. -/
theorem Store.moments_inRange (hpc : ∀ r, 0 ≤ (s.frame r).pc) {x : Machine}
    (hx : .instruction x ∈ s.moments steps c) : x.InRange := by
  obtain ⟨last, hcourse, -⟩ := h.course steps c
  exact (hcourse.keeps Machine.inRange_kept ⟨hpc _, h.machine _⟩).2 x hx

theorem Store.perform_pc_nonneg (hpc : ∀ r, 0 ≤ (s.frame r).pc)
    (hp : s.perform steps c = some (outcome, s')) (r : MachineRef) : 0 ≤ (s'.frame r).pc := by
  obtain ⟨last, hcourse, hlast⟩ := h.course steps c
  obtain ⟨d, hd, rfl, hcarry⟩ := hlast outcome s' hp
  have hm : (s.machine (c.subject s.stopped)).InRange := ⟨hpc _, h.machine _⟩
  have hafter := (hcourse.keeps Machine.inRange_kept hm).1
  have hpc' : ∀ p, 0 ≤ ((s.attend c).frame p).pc := by
    intro p
    rw [attend_frame]
    exact hpc p
  have hmachine : ∀ m, d.yields = .ok (.machine m) → 0 ≤ m.pc := by
    intro m hy
    rw [Machine.deed_machine hd hy]
    exact hm.pc
  have hcarried := carry_pc_nonneg hpc' (c.subject s.stopped) hafter.pc hmachine r
  rw [hcarry] at hcarried
  exact hcarried

/-- A call changes the memory of its machine by the writes of its moments, and no other. -/
theorem Store.memory_perform (hp : s.perform steps c = some (outcome, s')) {p : MemoryRef}
    (hsize : p.index < s.memories.size) :
    s'.memory p = if p = s.touched c then
      (s.memory p).putAll ((s.moments steps c).flatMap Moment.writes) else s.memory p := by
  obtain ⟨last, hcourse, hlast⟩ := h.course steps c
  obtain ⟨d, -, rfl, hcarry⟩ := hlast outcome s' hp
  have hcarried := memory_carry (s := s.attend c) (c.subject s.stopped) d (p := p)
    (by rw [attend_memories]; exact hsize)
  have hmemory : (s.attend c).memory p = s.memory p := by
    rw [Store.memory, attend_memories]
    rfl
  rw [hcarry, attend_frame, hmemory] at hcarried
  by_cases hsame : p = s.touched c
  · subst hsame
    rw [if_pos rfl]
    exact (hcarried.trans (if_pos rfl)).trans hcourse.memory
  · rw [if_neg hsame]
    exact hcarried.trans (if_neg hsame)

/-- At an instruction that a call carries out, the memory has what was written so far. -/
theorem Store.memory_at {before rest : List Moment} {x : Machine}
    (hx : s.moments steps c = before ++ .instruction x :: rest) :
    x.memory = (s.memory (s.touched c)).putAll (before.flatMap Moment.writes) := by
  obtain ⟨last, hcourse, -⟩ := h.course steps c
  exact hcourse.memory_at hx

end Calls

theorem Reachable.pc_nonneg (h : Reachable Origin s) (horigin : ∀ m, Origin m → m.InRange) :
    ∀ r, 0 ≤ (s.frame r).pc := by
  induction h with
  | empty => intro r; exact Int.le_refl 0
  | @add s m _ hm ih =>
      intro r
      rw [Store.frame_addMachine]
      split
      · exact (horigin m hm).pc
      · exact ih r
  | call hs hp ih => exact Store.perform_pc_nonneg (hs.sound_grounded horigin) ih hp

/-- **Nothing but the writes of the log has changed a memory** since it was made. -/
theorem History.memory (h : History Origin s log) (horigin : ∀ m, Origin m → m.InRange) :
    ∀ p, s.memory p = (log p).first.putAll (log p).writes := by
  induction h with
  | empty => intro p; rfl
  | @add s log m hs hm ih =>
      intro p
      rw [Log.extend]
      split
      · rename_i hsize
        rw [Store.memory_addMachine, if_neg (Nat.ne_of_lt hsize), ih p]
      · rfl
  | @call s s' log steps c outcome hs hp ih =>
      intro p
      rw [Log.extend]
      split
      · rename_i hsize
        rw [Store.memory_perform (hs.reachable.sound_grounded horigin) hp hsize, Log.enter]
        split
        · rw [Memory.putAll_append, ← ih p]
        · exact ih p
      · rfl

theorem Store.machine_copy (s : Store) (steps : Nat) (r : MachineRef) :
    ∃ r' s', s.perform steps (.copy r) = some (.ok (.machine r'), s') ∧
      s'.machine r' = (s.machine r).copy :=
  ⟨_, _, rfl, machine_addMachine s _⟩

/--
**A machine that is made without a negative address stays in range.**  After any calls on such
machines, on copies of them and on their stops, failed calls included, no program counter is
negative, no memory has a cell with a negative address, and no value is asked for at one.  The
extent of a memory is one past its highest address, or zero without any; it is also the maximum
of what it was at first and of one past every address written since, and a copy has the same.
No call lowers it.

The same holds at every instruction that a call carries out, whether or not the call comes to
an end.  An instruction that completes is fetched below the extent, as it is then.
-/
theorem Store.reachable_machines_stay_in_range (h : History Machine.Made s log) :
    (∀ r, 0 ≤ (s.machine r).pc) ∧
    (∀ p, (s.memory p).Grounded) ∧
    (∀ q destination, (s.stopped q).stop = .input destination → 0 ≤ destination) ∧
    (∀ p, s.memory p = (log p).first.putAll (log p).writes ∧
      (s.memory p).extent = (log p).extentAfter (log p).writes) ∧
    (∀ p, (s.memory p).copy.extent = (s.memory p).extent) ∧
    (∀ steps r, ∃ r' s', s.perform steps (.copy r) = some (.ok (.machine r'), s') ∧
      (s'.machine r').memory.extent = (s.machine r).memory.extent) ∧
    (∀ steps c outcome s', s.perform steps c = some (outcome, s') →
      ∀ p, p.index < s.memories.size → (s.memory p).extent ≤ (s'.memory p).extent) ∧
    ∀ steps c before x rest, s.moments steps c = before ++ .instruction x :: rest →
      x.InRange ∧
      x.memory.extent = (log (s.touched c)).extentAfter
        ((log (s.touched c)).writes ++ before.flatMap Moment.writes) ∧
      ∀ stop? x', x.exec = (.ok stop?, x') → x.pc < x.memory.extent := by
  have horigin : ∀ m : Machine, m.Made → m.InRange := fun m hm => hm.inRange
  have hsound := h.reachable.sound_grounded horigin
  have hpc := h.reachable.pc_nonneg horigin
  have hmemory := h.memory horigin
  have hcopy : ∀ p, (s.memory p).copy = s.memory p :=
    fun p => Memory.copy_of_tight ((Memory.grounded_iff _).mp (hsound.memory p)).1
  refine ⟨hpc, hsound.memory, hsound.destination, fun p => ⟨hmemory p, ?_⟩, fun p => ?_,
    fun steps r => ?_, fun steps c outcome s' hp p hsize => ?_, fun steps c before x rest hx => ?_⟩
  · rw [hmemory p, Memory.extent_putAll]
    rfl
  · rw [hcopy p]
  · obtain ⟨r', s', hp, hcopied⟩ := s.machine_copy steps r
    refine ⟨r', s', hp, ?_⟩
    rw [hcopied]
    exact congrArg Memory.extent (hcopy (s.frame r).memory)
  · rw [Store.memory_perform hsound hp hsize]
    split
    · exact Memory.extent_le_putAll _ _
    · exact Int.le_refl _
  · have hmem : .instruction x ∈ s.moments steps c := by
      rw [hx]
      exact List.mem_append_right _ List.mem_cons_self
    have hrange := Store.moments_inRange hsound hpc hmem
    refine ⟨hrange, ?_, fun stop? x' hexec => hrange.lt_extent hexec⟩
    rw [Store.memory_at hsound hx, hmemory, ← Memory.putAll_append, Memory.extent_putAll]
    rfl

/-- A machine that adds two to what it is handed, and writes past its program. -/
def outreach : Machine := { memory := .ofValues [3, 9, 101, 2, 9, 30, 99] }

/-- The extent follows the write past the program. -/
theorem outreach_stays_in_range :
    ∃ s log, History Machine.Made s log ∧ (log ⟨0⟩).first = outreach.memory ∧
      (log ⟨0⟩).writes = [(9, 5), (30, 7)] ∧ (s.memory ⟨0⟩).extent = 31 ∧
      (s.memory ⟨0⟩).copy.extent = 31 := by
  have hloaded : outreach.Loaded := Machine.loaded_ofValues (List.cons_ne_nil _ _) false
  have hmade := History.add .empty (Machine.Made.loaded hloaded)
  have hrun := History.call (c := .run ⟨0⟩) hmade (rfl : Store.perform 1 _ _ = some (_, _))
  have hlife : ∃ s log, History Machine.Made s log ∧ (log ⟨0⟩).first = outreach.memory ∧
      (log ⟨0⟩).writes = [(9, 5), (30, 7)] :=
    ⟨_, _, .call (c := .resume ⟨0⟩ 5) hrun (rfl : Store.perform 2 _ _ = some (_, _)), rfl, rfl⟩
  obtain ⟨s, log, hlife, hfirst, hwrites⟩ := hlife
  obtain ⟨-, -, -, hextent, hcopy, -⟩ := Store.reachable_machines_stay_in_range hlife
  have hloadedExtent : outreach.memory.extent = 7 := Memory.extent_ofValues _
  have hlast := (hextent ⟨0⟩).2
  rw [Record.extentAfter, hfirst, hwrites, hloadedExtent] at hlast
  exact ⟨s, log, hlife, hfirst, hwrites, hlast, (hcopy ⟨0⟩).trans hlast⟩

end Advent.Intcode
