/-
A copy is isolated.

Parties share a store, each with a desk of its own, and do calls in any order.  As long as
no memory is on two desks, what a party gets to see is what its own calls come to on what
lies on its desk, so the calls of the others might as well not be there.  `play_views` is
this projection, by induction on the calls, and `play_own` compares it with the calls of
one party alone.

A copy has a memory of its own.  So a machine with its stops, at any time of its life, and
a copy of it are such parties, and stay so with all that comes of them.
-/
import Mathlib.Logic.Function.Basic
import Advent.Proofs.Intcode.Desk

namespace Advent.Intcode

/-- The replies to calls on a view one after another, and the view after the last of them. -/
def View.performAll (steps : Nat) : View → List Call → Option (List (Except Fault Reply) × View)
  | v, [] => some ([], v)
  | v, c :: calls => do
    let (reply, v) ← v.perform steps c
    let (replies, v) ← performAll steps v calls
    return (reply :: replies, v)

/-- A store and the desks of the parties that work in it. -/
structure Room (ι : Type) where
  store : Store
  desks : ι → Desk

namespace Room

variable {ι : Type} [DecidableEq ι]

/-- What lies on the desk of a party. -/
def view (room : Room ι) (i : ι) : View := (room.desks i).view room.store

/-- A call of one party. -/
def perform (steps : Nat) (room : Room ι) (i : ι) (c : Call) : Option (Except Fault Reply × Room ι) :=
  ((room.desks i).perform steps room.store c).map fun (reply, d, s) =>
    (reply, ⟨s, Function.update room.desks i d⟩)

/-- Calls of the parties one after another, with the replies that each party gets. -/
def play (steps : Nat) :
    Room ι → List (ι × Call) → Option ((ι → List (Except Fault Reply)) × Room ι)
  | room, [] => some (fun _ => [], room)
  | room, (i, c) :: calls => do
    let (reply, room) ← room.perform steps i c
    let (replies, room) ← play steps room calls
    return (Function.update replies i (reply :: replies i), room)

/-- The calls of one party alone. -/
def own (i : ι) (calls : List (ι × Call)) : List (ι × Call) := calls.filter fun x => x.1 = i

/-- No memory is on two desks. -/
structure Apart (room : Room ι) : Prop where
  fits : ∀ i, (room.desks i).Fits room.store
  apart : ∀ i j, i ≠ j → (room.desks i).Apart (room.desks j) room.store

variable {room : Room ι}

/-! ### One call -/

theorem Apart.moves (h : room.Apart) {i : ι} {d : Desk} {s : Store}
    (hmoves : (room.desks i).Moves room.store d s) :
    Apart ⟨s, Function.update room.desks i d⟩ ∧
      ∀ j, j ≠ i → view ⟨s, Function.update room.desks i d⟩ j = room.view j := by
  -- the desk of the party is replaced, and to every other one nothing happens
  have hself : Function.update room.desks i d i = d := Function.update_self i d room.desks
  have hother : ∀ {j}, j ≠ i → Function.update room.desks i d j = room.desks j := fun {j} hj =>
    Function.update_of_ne hj d room.desks
  have hnext : ∀ {j}, j ≠ i → (room.desks j).Fits s ∧ (room.desks j).Apart d s ∧
      (room.desks j).view s = room.view j := fun {j} hj =>
    hmoves.others _ (h.fits j) (h.apart j i hj)
  refine ⟨⟨fun j => ?_, fun j k hjk => ?_⟩, fun j hj => ?_⟩
  · show (Function.update room.desks i d j).Fits s
    by_cases hj : j = i
    · subst hj
      rw [hself]
      exact hmoves.fits
    · rw [hother hj]
      exact (hnext hj).1
  · -- the call was made at the one desk, at the other or at neither
    show (Function.update room.desks i d j).Apart (Function.update room.desks i d k) s
    by_cases hj : j = i
    · subst hj
      rw [hself, hother hjk.symm]
      intro r hr p hp hsame
      exact (hnext hjk.symm).2.1 p hp r hr hsame.symm
    · by_cases hk : k = i
      · subst hk
        rw [hself, hother hj]
        exact (hnext hj).2.1
      · rw [hother hj, hother hk]
        intro r hr p hp
        rw [(hmoves.kept r ((h.fits j).holds r hr)).2, (hmoves.kept p ((h.fits k).holds p hp)).2]
        exact h.apart j k hjk r hr p hp
  · show (Function.update room.desks i d j).view s = _
    rw [hother hj]
    exact (hnext hj).2.2

/-- **A call is noticed by its own party only.** -/
theorem perform_view (h : room.Apart) (steps : Nat) (i : ι) (c : Call) :
    ((room.perform steps i c).map fun x => (x.1, x.2.view i)) = (room.view i).perform steps c ∧
      ∀ x, room.perform steps i c = some x →
        x.2.Apart ∧ ∀ j, j ≠ i → x.2.view j = room.view j := by
  obtain ⟨hview, hmoves⟩ := Desk.perform_view (h.fits i) steps c
  rw [view, ← hview, perform]
  cases hperform : (room.desks i).perform steps room.store c with
  | none => exact ⟨rfl, fun x hx => by cases hx⟩
  | some x =>
      obtain ⟨reply, d, s⟩ := x
      refine ⟨?_, fun x hx => ?_⟩
      · show some (reply, (Function.update room.desks i d i).view s) = _
        rw [Function.update_self]
        rfl
      · cases hx
        exact h.moves (hmoves _ hperform)

/-! ### Any number of calls

By induction on the calls, what a party gets is what its own calls come to on its view.  Whether
they go through as well is a matter of each view, so the calls of one party alone go through
wherever all of them do.
-/

theorem own_cons_self (i : ι) (c : Call) (calls : List (ι × Call)) :
    own i ((i, c) :: calls) = (i, c) :: own i calls :=
  List.filter_cons_of_pos (decide_eq_true rfl)

theorem own_cons_ne {i j : ι} (hij : i ≠ j) (c : Call) (calls : List (ι × Call)) :
    own j ((i, c) :: calls) = own j calls :=
  List.filter_cons_of_neg (by simpa using hij)

/-- **Every party sees its own calls on what lies on its desk**, and the calls go through
if those of every party do. -/
theorem play_views (steps : Nat) (calls : List (ι × Call)) :
    ∀ {room : Room ι}, room.Apart →
      (∀ x, room.play steps calls = some x →
        ∀ i, (room.view i).performAll steps ((own i calls).map Prod.snd) = some (x.1 i, x.2.view i)) ∧
      (room.play steps calls = none →
        ∃ i, (room.view i).performAll steps ((own i calls).map Prod.snd) = none) := by
  induction calls with
  | nil =>
      intro room _
      refine ⟨fun x hx i => ?_, fun hnone => by cases hnone⟩
      cases hx
      rfl
  | cons call calls ih =>
      intro room h
      obtain ⟨i, c⟩ := call
      obtain ⟨hown, hothers⟩ := perform_view h steps i c
      rw [play]
      cases hperform : room.perform steps i c with
      | none =>
          refine ⟨fun x hx => (by cases hx), fun _ => ⟨i, ?_⟩⟩
          rw [hperform] at hown
          rw [own_cons_self, List.map_cons, View.performAll, ← hown]
          rfl
      | some x =>
          obtain ⟨reply, next⟩ := x
          obtain ⟨happart, hviews⟩ := hothers _ hperform
          obtain ⟨hsome, hnone⟩ := ih happart
          rw [hperform] at hown
          -- the party sees its first call, and the others what they saw before it
          have hfirst : ∀ rest, (room.view i).performAll steps (c :: rest) =
              ((next.view i).performAll steps rest).map fun y => (reply :: y.1, y.2) := by
            intro rest
            rw [View.performAll, ← hown]
            simp only [Option.map_some, Option.bind_eq_bind, Option.bind_some]
            cases (next.view i).performAll steps rest <;> rfl
          cases hplay : next.play steps calls with
          | none =>
              obtain ⟨j, hj⟩ := hnone hplay
              refine ⟨fun x hx => (by simp [hplay] at hx), fun _ => ⟨j, ?_⟩⟩
              by_cases hji : i = j
              · subst hji
                rw [own_cons_self, List.map_cons, hfirst, hj]
                rfl
              · rw [own_cons_ne hji, ← hviews j (Ne.symm hji), hj]
          | some y =>
              refine ⟨fun x hx j => ?_, fun hx => by simp [hplay] at hx⟩
              simp only [Option.bind_eq_bind, Option.bind_some, hplay] at hx
              cases hx
              have hj := hsome y hplay j
              by_cases hji : i = j
              · subst hji
                rw [own_cons_self, List.map_cons, hfirst, hj]
                show _ = some (Function.update y.1 i (reply :: y.1 i) i, _)
                rw [Function.update_self]
                rfl
              · rw [own_cons_ne hji, ← hviews j (Ne.symm hji), hj]
                show _ = some (Function.update y.1 i (reply :: y.1 i) j, _)
                rw [Function.update_of_ne (Ne.symm hji)]

theorem own_own_self (i : ι) (calls : List (ι × Call)) : own i (own i calls) = own i calls := by
  rw [own, own, List.filter_filter]
  simp only [Bool.and_self]

theorem own_own_ne {i j : ι} (hij : i ≠ j) (calls : List (ι × Call)) : own j (own i calls) = [] := by
  rw [own, List.filter_eq_nil_iff]
  intro x hx hxj
  have hxi : x.1 = i := by simpa [own] using (List.mem_filter.mp hx).2
  exact hij (hxi.symm.trans (of_decide_eq_true hxj))

/-- The calls of a party alone go through where they do on its desk. -/
theorem play_own_eq_none_iff (h : room.Apart) (steps : Nat) (i : ι) (calls : List (ι × Call)) :
    room.play steps (own i calls) = none ↔
      (room.view i).performAll steps ((own i calls).map Prod.snd) = none := by
  obtain ⟨hsome, hnone⟩ := play_views steps (own i calls) h
  refine ⟨fun hplay => ?_, fun hperform => ?_⟩
  · obtain ⟨j, hj⟩ := hnone hplay
    by_cases hij : i = j
    · subst hij
      rwa [own_own_self] at hj
    · rw [own_own_ne hij] at hj
      cases hj
  · refine Option.eq_none_iff_forall_not_mem.mpr fun x hx => ?_
    have hi := hsome x hx i
    rw [own_own_self, hperform] at hi
    cases hi

/-- **The calls of the others might as well not be there.** -/
theorem play_own (h : room.Apart) (steps : Nat) (calls : List (ι × Call)) :
    (room.play steps calls = none ↔ ∃ i, room.play steps (own i calls) = none) ∧
      ∀ x, room.play steps calls = some x → ∀ i, ∃ y, room.play steps (own i calls) = some y ∧
        y.1 i = x.1 i ∧ y.2.view i = x.2.view i := by
  obtain ⟨hsome, hnone⟩ := play_views steps calls h
  refine ⟨⟨fun hplay => ?_, fun halone => ?_⟩, fun x hx i => ?_⟩
  · obtain ⟨i, hi⟩ := hnone hplay
    exact ⟨i, (play_own_eq_none_iff h steps i calls).mpr hi⟩
  · obtain ⟨i, hi⟩ := halone
    refine Option.eq_none_iff_forall_not_mem.mpr fun x hx => ?_
    have hi' := hsome x hx i
    rw [(play_own_eq_none_iff h steps i calls).mp hi] at hi'
    cases hi'
  · have hi := hsome x hx i
    cases hplay : room.play steps (own i calls) with
    | none =>
        rw [(play_own_eq_none_iff h steps i calls).mp hplay] at hi
        cases hi
    | some y =>
        have hy := (play_views steps (own i calls) h).1 y hplay i
        rw [own_own_self, hi] at hy
        obtain ⟨hreplies, hview⟩ := Prod.mk.inj (Option.some.inj hy)
        exact ⟨y, rfl, hreplies.symm, hview.symm⟩

end Room

/-! ### A machine and its copy -/

/-- The two parties. -/
inductive Side where
  | original
  | duplicate
  deriving DecidableEq, Repr

namespace Store

/-- The stops of a machine. -/
def stopsOf (s : Store) (r : MachineRef) : List StopRef :=
  ((List.range s.stops.size).map StopRef.mk).filter fun q => (s.stopped q).machine = r

/-- A machine with its stops on one desk, and another on the other. -/
def sides (s : Store) (r c : MachineRef) : Room Side where
  store := s
  desks
    | .original => ⟨[r], s.stopsOf r⟩
    | .duplicate => ⟨[c], []⟩

variable {s : Store} {r : MachineRef}

theorem stopsOf_fits (hr : s.Holds r) : Desk.Fits ⟨[r], s.stopsOf r⟩ s := by
  have hmem : ∀ q ∈ s.stopsOf r, q.index < s.stops.size ∧ (s.stopped q).machine = r := by
    intro q hq
    obtain ⟨hq, hmachine⟩ := List.mem_filter.mp hq
    obtain ⟨i, hi, rfl⟩ := List.mem_map.mp hq
    exact ⟨List.mem_range.mp hi, of_decide_eq_true hmachine⟩
  refine ⟨fun p hp => ?_, fun p hp p' hp' _ => ?_, fun q hq => (hmem q hq).1, fun q hq => ?_,
    List.nodup_singleton r, ?_⟩
  · rw [List.mem_singleton.mp hp]
    exact hr
  · rw [List.mem_singleton.mp hp, List.mem_singleton.mp hp']
  · rw [(hmem q hq).2]
    exact List.mem_singleton_self r
  · exact (List.nodup_range.map fun i j hij => congrArg StopRef.index hij).filter _

/-- A new machine is apart from any that was there. -/
theorem sides_apart (hr : s.Holds r) (m : Machine) :
    ((s.addMachine m).2.sides r (s.addMachine m).1).Apart := by
  have hempty : Desk.Fits ⟨[], []⟩ s :=
    ⟨fun _ h => (by cases h), fun _ h => (by cases h), fun _ h => (by cases h), fun _ h => (by cases h),
      List.nodup_nil, List.nodup_nil⟩
  have hmoves := Desk.moves_addMachine hempty m
  obtain ⟨hfits, hapart, -⟩ := hmoves.others _ (stopsOf_fits hr) fun _ _ _ h => (by cases h)
  refine ⟨fun i => ?_, fun i j hij => ?_⟩
  · cases i with
    | original => exact hfits
    | duplicate => exact hmoves.fits
  · cases i <;> cases j
    · exact absurd rfl hij
    · exact hapart
    · exact fun p hp p' hp' hsame => hapart p' hp' p hp hsame.symm
    · exact absurd rfl hij

/--
**A copy is isolated.**  Any machine in a store may be copied, whatever was done with it
before.  Then calls are made in any order, some on the machine, its stops and what comes
of them, and some on the copy and what comes of that.  They go through if the calls of
either side go through alone.  Each side gets the replies and the faults that its own calls
get alone, and its machines end with the same memories, program counters, relative bases
and flags, and its stops with the same marks.
-/
theorem copy_isolated (hr : s.Holds r) (steps : Nat) :
    ∃ c s', s.perform steps (.copy r) = some (.ok (.machine c), s') ∧
      ∀ calls : List (Side × Call),
        ((s'.sides r c).play steps calls = none ↔
          ∃ side, (s'.sides r c).play steps (Room.own side calls) = none) ∧
        ∀ replies room, (s'.sides r c).play steps calls = some (replies, room) →
          ∀ side, ∃ replies' room',
            (s'.sides r c).play steps (Room.own side calls) = some (replies', room') ∧
              replies' side = replies side ∧ room'.view side = room.view side := by
  refine ⟨_, _, rfl, fun calls => ?_⟩
  obtain ⟨hnone, hsome⟩ := Room.play_own (sides_apart hr (s.machine r).copy) steps calls
  refine ⟨hnone, fun replies room hplay side => ?_⟩
  obtain ⟨⟨replies', room'⟩, hown, hreplies, hview⟩ := hsome (replies, room) hplay side
  exact ⟨replies', room', hown, hreplies, hview⟩

/-- A machine that has asked for a value, which it would put out again. -/
def asking : Store :=
  let echo := (empty.addMachine { memory := .ofValues [3, 9, 4, 9, 99] }).2
  ((echo.perform 1 (.run ⟨0⟩)).map Prod.snd).getD empty

/-- Each side is given a value of its own. -/
def givenApart : List (Side × Call) :=
  [(.duplicate, .put ⟨0⟩ 9 5), (.original, .resume ⟨0⟩ 7), (.duplicate, .run ⟨0⟩),
    (.original, .get ⟨0⟩ 9), (.duplicate, .get ⟨0⟩ 9)]

/-- What the copy was given is found in it, without the calls on the original. -/
theorem asking_copy_isolated :
    asking.Holds ⟨0⟩ ∧ ∃ c s', asking.perform 2 (.copy ⟨0⟩) = some (.ok (.machine c), s') ∧
      ∃ replies room,
        (s'.sides ⟨0⟩ c).play 2 (Room.own .duplicate givenApart) = some (replies, room) ∧
        replies .duplicate = [.ok .done, .ok (.stopped ⟨0⟩), .ok (.number 5)] := by
  have hholds : asking.Holds ⟨0⟩ := ⟨by decide, by decide⟩
  obtain ⟨c, s', hcopy, hisolated⟩ := copy_isolated hholds 2
  have hplay : ∃ replies room, (s'.sides ⟨0⟩ c).play 2 givenApart = some (replies, room) ∧
      replies .duplicate = [.ok .done, .ok (.stopped ⟨0⟩), .ok (.number 5)] := by
    cases hcopy
    exact ⟨_, _, rfl, rfl⟩
  obtain ⟨replies, room, hplay, hreplies⟩ := hplay
  obtain ⟨replies', room', hown, hsame, -⟩ := (hisolated givenApart).2 replies room hplay .duplicate
  exact ⟨hholds, c, s', hcopy, replies', room', hown, hsame.trans hreplies⟩

end Store

end Advent.Intcode
