/-
What a program does depends only on the input that it has asked for.

A `Conversation` is where the driver of a machine stands between two stops: the machine, the
values that it may still hand in, and what it has kept of the stops so far.  `turn` says what
the driver makes of the next stop: the conversation goes on, or it ends with a transcript.
`transcribes_iff` is that a transcript is a row of such stops and an end.

Surplus values lie behind those that are handed in.  One turn only finds out about them, the
request for which nothing is left; `turn_more_next` and `turn_more_last` say that all others
are the same.  So a run that is not short of input is the same run with more of it, and one
that is short of input comes to the same request and goes on from there.  It comes to no other
request of that number, because the driver has no choice.
-/
import Mathlib.Logic.Relation
import Advent.Proofs.Intcode.Drive

namespace Advent.Intcode

/-- Driving the machine comes to this stop or fault and leaves the machine so. -/
def Machine.DrivesTo (m : Machine) (result : Except Fault Stop) (after : Machine) : Prop :=
  ∃ steps, m.drive steps = some (result, after)

theorem Machine.DrivesTo.unique {m after after' : Machine} {result result' : Except Fault Stop}
    (h : m.DrivesTo result after) (h' : m.DrivesTo result' after') :
    result = result' ∧ after = after' := by
  obtain ⟨steps, h⟩ := h
  obtain ⟨steps', h'⟩ := h'
  have hlonger := drive_mono h (Nat.le_max_left steps steps')
  rw [drive_mono h' (Nat.le_max_right steps steps')] at hlonger
  simp only [Option.some.injEq, Prod.mk.injEq] at hlonger
  exact ⟨hlonger.1.symm, hlonger.2.symm⟩

/-- With some allowance, a run with these inputs has this transcript. -/
def Machine.Transcribes (m : Machine) (inputs : List Int) (t : Transcript) : Prop :=
  ∃ steps, m.runWithInputs steps inputs = some t

/-- Where the driver of a machine stands between two stops: the machine to be driven on, the
values still to be handed in, how many were, and the stops so far, the latest first. -/
structure Conversation where
  machine : Machine
  pending : List Int
  supplied : Nat
  past : List Event

namespace Conversation

/-- The driver of a machine before the first stop. -/
def start (m : Machine) (inputs : List Int) : Conversation :=
  ⟨{ m with started := true }, inputs, 0, []⟩

/-- The values put out so far, in order. -/
def outputs (c : Conversation) : List Int := c.past.reverse.filterMap Event.output?

/-- The conversation with surplus values behind those still to be handed in. -/
def more (c : Conversation) (surplus : List Int) : Conversation :=
  { c with pending := c.pending ++ surplus }

/-- What the driver makes of what its machine comes to. -/
def turn (c : Conversation) (result : Except Fault Stop) (m : Machine) :
    Conversation ⊕ Transcript :=
  match result with
  | .error fault => .inr ⟨c.past.reverse, .error fault, m⟩
  | .ok stop =>
    let past := m.event stop :: c.past
    match stop, c.pending with
    | .halt, _ => .inr ⟨past.reverse, .ok (), m⟩
    | .output _, _ => .inl { c with machine := m, past }
    | .input _, [] => .inr ⟨past.reverse, Fault.raise (.inputExhausted c.supplied), m⟩
    | .input _, value :: pending => .inl ⟨m.answer stop value, pending, c.supplied + 1, past⟩

/-- The conversation goes on after the next stop. -/
def Next (c c' : Conversation) : Prop :=
  ∃ result m, c.machine.DrivesTo result m ∧ c.turn result m = .inl c'

/-- The conversation ends at the next stop, with this transcript. -/
def Closes (c : Conversation) (t : Transcript) : Prop :=
  ∃ result m, c.machine.DrivesTo result m ∧ c.turn result m = .inr t

/-- So many stops, none of which is the last, lead from one conversation to another. -/
def Reaches : Conversation → Conversation → Prop := Relation.ReflTransGen Next

variable {c c' first last : Conversation} {result : Except Fault Stop} {m : Machine}
  {t : Transcript}

/-! ### Transcripts are conversations that end -/

/-- The transcript of the conversation, under an allowance. -/
def transcript (steps legs : Nat) (c : Conversation) : Option Transcript :=
  c.machine.converse steps legs c.pending c.supplied c.past

theorem transcript_succ (steps legs : Nat) (c : Conversation) :
    c.transcript steps (legs + 1) = (c.machine.drive steps).bind fun x =>
      (c.turn x.1 x.2).elim (transcript steps legs) some := by
  obtain ⟨m, pending, supplied, past⟩ := c
  rw [transcript, Machine.converse]
  rcases m.drive steps with _ | ⟨fault | stop, m'⟩
  · rfl
  · rfl
  · cases stop with
    | input destination => cases pending <;> rfl
    | output value => rfl
    | halt => rfl

theorem transcript_mono {steps steps' legs legs' : Nat} (h : c.transcript steps legs = some t)
    (hsteps : steps ≤ steps') (hlegs : legs ≤ legs') : c.transcript steps' legs' = some t :=
  Machine.converse_mono hsteps legs h hlegs

/-- A transcript is reached stop by stop, by induction on the legs. -/
theorem closes_of_transcript {steps : Nat} (legs : Nat) :
    ∀ {c : Conversation}, c.transcript steps legs = some t →
      ∃ last, c.Reaches last ∧ last.Closes t := by
  induction legs with
  | zero => intro c h; cases h
  | succ legs ih =>
      intro c h
      rw [transcript_succ] at h
      obtain ⟨⟨result, m⟩, hdrive, h⟩ := Option.bind_eq_some_iff.mp h
      cases hturn : c.turn result m with
      | inl c' =>
          rw [hturn] at h
          obtain ⟨last, hreaches, hcloses⟩ := ih h
          exact ⟨last, .head ⟨result, m, ⟨steps, hdrive⟩, hturn⟩ hreaches, hcloses⟩
      | inr t' =>
          rw [hturn] at h
          cases h
          exact ⟨c, .refl, result, m, ⟨steps, hdrive⟩, hturn⟩

/-- The allowances of the stops on the way are raised to a common one. -/
theorem transcript_of_closes (hreaches : c.Reaches last) (hcloses : last.Closes t) :
    ∃ steps, c.transcript steps steps = some t := by
  induction hreaches using Relation.ReflTransGen.head_induction_on with
  | refl =>
      obtain ⟨result, m, ⟨steps, hdrive⟩, hturn⟩ := hcloses
      have hdrive' := Machine.drive_mono hdrive (Nat.le_succ steps)
      refine ⟨steps + 1, ?_⟩
      rw [transcript_succ, hdrive', Option.bind_some, hturn]
      rfl
  | head hnext _ ih =>
      obtain ⟨result, m, ⟨steps, hdrive⟩, hturn⟩ := hnext
      obtain ⟨steps', hrest⟩ := ih
      have hdrive' := Machine.drive_mono hdrive (by omega : steps ≤ max steps steps' + 1)
      refine ⟨max steps steps' + 1, ?_⟩
      rw [transcript_succ, hdrive', Option.bind_some, hturn]
      exact transcript_mono hrest (by omega) (Nat.le_max_right _ _)

/-- **A transcript is a conversation that ends.** -/
theorem transcribes_iff (hfresh : m.started = false) (inputs : List Int) (t : Transcript) :
    m.Transcribes inputs t ↔ ∃ last, (start m inputs).Reaches last ∧ last.Closes t := by
  have hrun : ∀ steps, m.runWithInputs steps inputs = (start m inputs).transcript steps steps := by
    intro steps
    simp only [Machine.runWithInputs, hfresh, Bool.false_eq_true, if_false]
    rfl
  simp only [Machine.Transcribes, hrun]
  refine ⟨?_, ?_⟩
  · intro htranscript
    obtain ⟨steps, h⟩ := htranscript
    exact closes_of_transcript steps h
  · intro hcloses
    obtain ⟨last, hreaches, hcloses⟩ := hcloses
    exact transcript_of_closes hreaches hcloses

/-! ### The driver has no choice

There is at most one next stop and at most one transcript to close with, and never both.  So of two
conversations that are reached from one place, one comes after the other.
-/

theorem Next.unique {c₁ c₂ : Conversation} (h₁ : c.Next c₁) (h₂ : c.Next c₂) : c₁ = c₂ := by
  obtain ⟨result, m, hdrives, hturn₁⟩ := h₁
  obtain ⟨result', m', hdrives', hturn₂⟩ := h₂
  obtain ⟨rfl, rfl⟩ := hdrives.unique hdrives'
  exact Sum.inl.inj (hturn₁.symm.trans hturn₂)

theorem Closes.unique {t' : Transcript} (h : c.Closes t) (h' : c.Closes t') : t = t' := by
  obtain ⟨result, m, hdrives, hturn⟩ := h
  obtain ⟨result', m', hdrives', hturn'⟩ := h'
  obtain ⟨rfl, rfl⟩ := hdrives.unique hdrives'
  exact Sum.inr.inj (hturn.symm.trans hturn')

theorem Closes.not_next (h : c.Closes t) : ¬ c.Next c' := by
  obtain ⟨result, m, hdrives, hturn⟩ := h
  rintro ⟨result', m', hdrives', hturn'⟩
  obtain ⟨rfl, rfl⟩ := hdrives.unique hdrives'
  rw [hturn] at hturn'
  cases hturn'

/-- Of two conversations on the way, one is reached from the other. -/
theorem Reaches.total (h : first.Reaches c) (h' : first.Reaches c') :
    c.Reaches c' ∨ c'.Reaches c :=
  Relation.ReflTransGen.total_of_right_unique (fun _ _ _ => Next.unique) h h'

/-- Whatever a conversation comes to, it comes to on the way to its end. -/
theorem Closes.reaches (h : last.Closes t) (hlast : first.Reaches last)
    (hreaches : first.Reaches c) : c.Reaches last := by
  rcases hreaches.total hlast with hon | hback
  · exact hon
  · rcases Relation.ReflTransGen.cases_head hback with rfl | ⟨_, hnext, -⟩
    · exact .refl
    · exact absurd hnext h.not_next

/-! ### What the driver keeps -/

/-- A value that is handed in is one less to be handed in, and nothing is forgotten. -/
theorem turn_keeps (h : c.turn result m = .inl c') :
    c'.supplied + c'.pending.length = c.supplied + c.pending.length ∧
      c.supplied ≤ c'.supplied ∧ c.past <:+ c'.past := by
  rcases result with fault | stop
  · cases h
  · cases stop with
    | halt => cases h
    | output value =>
        cases h
        exact ⟨rfl, Nat.le_refl _, List.suffix_cons _ _⟩
    | input destination =>
        rcases hpending : c.pending with _ | ⟨value, pending⟩ <;>
          simp only [turn, hpending] at h <;> cases h
        exact ⟨by simp only [List.length_cons]; omega, Nat.le_succ _, List.suffix_cons _ _⟩

theorem Reaches.keeps (h : c.Reaches c') :
    c'.supplied + c'.pending.length = c.supplied + c.pending.length ∧
      c.supplied ≤ c'.supplied ∧ c.past <:+ c'.past := by
  induction h with
  | refl => exact ⟨rfl, Nat.le_refl _, List.suffix_refl _⟩
  | tail _ hnext ih =>
      obtain ⟨result, m, -, hturn⟩ := hnext
      obtain ⟨hcount, hle, hpast⟩ := turn_keeps hturn
      exact ⟨hcount.trans ih.1, Nat.le_trans ih.2.1 hle, ih.2.2.trans hpast⟩

theorem turn_last_past (h : c.turn result m = .inr t) : c.past.reverse <+: t.events := by
  rcases result with fault | stop
  · cases h
    exact List.prefix_refl _
  · have hevent : c.past.reverse <+: (m.event stop :: c.past).reverse :=
      List.reverse_prefix.mpr (List.suffix_cons _ _)
    cases stop with
    | halt => cases h; exact hevent
    | output value => cases h
    | input destination =>
        rcases hpending : c.pending <;> simp only [turn, hpending] at h <;> cases h
        exact hevent

/-- What was put out on the way stands in front of all that is put out. -/
theorem Closes.outputs (h : last.Closes t) (hlast : first.Reaches last)
    (hreaches : first.Reaches c) : c.outputs <+: t.outputs := by
  obtain ⟨-, -, hpast⟩ := (h.reaches hlast hreaches).keeps
  obtain ⟨result, m, -, hturn⟩ := h
  exact ((List.reverse_prefix.mpr hpast).trans (turn_last_past hturn)).filterMap _

/-! ### Surplus values

A value behind those still to be handed in can only be noticed once they are used up, and that is
where the driver reports that it is short of input.
-/

/-- A turn that goes on does the same with surplus values behind. -/
theorem turn_more_next (h : c.turn result m = .inl c') (surplus : List Int) :
    (c.more surplus).turn result m = .inl (c'.more surplus) := by
  rcases result with fault | stop
  · cases h
  · cases stop with
    | halt => cases h
    | output value => cases h; rfl
    | input destination =>
        rcases hpending : c.pending <;> simp only [turn, hpending] at h <;> cases h
        simp only [turn, more, hpending, List.cons_append]

/-- A turn that ends for another reason than want of input ends in the same way. -/
theorem turn_more_last (h : c.turn result m = .inr t)
    (hresult : ∀ k, t.result ≠ .error (.inputExhausted k)) (surplus : List Int) :
    (c.more surplus).turn result m = .inr t := by
  rcases result with fault | stop
  · cases h; rfl
  · cases stop with
    | halt => cases h; rfl
    | output value => cases h
    | input destination =>
        rcases hpending : c.pending <;> simp only [turn, hpending] at h <;> cases h
        exact absurd rfl (hresult _)

theorem Reaches.more (h : c.Reaches c') (surplus : List Int) :
    (c.more surplus).Reaches (c'.more surplus) := by
  induction h with
  | refl => exact .refl
  | tail _ hnext ih =>
      obtain ⟨result, m, hdrives, hturn⟩ := hnext
      exact .tail ih ⟨result, m, hdrives, turn_more_next hturn surplus⟩

theorem Closes.more (h : c.Closes t) (hresult : ∀ k, t.result ≠ .error (.inputExhausted k))
    (surplus : List Int) : (c.more surplus).Closes t := by
  obtain ⟨result, m, hdrives, hturn⟩ := h
  exact ⟨result, m, hdrives, turn_more_last hturn hresult surplus⟩

/-- A conversation is short of input at a request, when all that there was is handed in. -/
theorem Closes.of_exhausted (h : c.Closes t) {k : Nat}
    (hresult : t.result = .error (.inputExhausted k)) :
    k = c.supplied ∧ c.pending = [] ∧ c.outputs = t.outputs ∧
      ∃ destination, c.machine.DrivesTo (.ok (.input destination)) t.machine := by
  obtain ⟨result, m, hdrives, hturn⟩ := h
  rcases result with fault | stop
  · -- no instruction fails for want of input
    cases hturn
    cases hresult
    obtain ⟨steps, hdrive⟩ := hdrives
    exact absurd (Machine.drive_fault_kind hdrive)
      (by simp [Fault.kind, Machine.faultKinds, Machine.decodingKinds])
  · cases stop with
    | halt => cases hturn; cases hresult
    | output value => cases hturn
    | input destination =>
        rcases hpending : c.pending <;> simp only [turn, hpending] at hturn <;> cases hturn
        cases hresult
        refine ⟨rfl, rfl, ?_, destination, hdrives⟩
        simp [Conversation.outputs, Transcript.outputs, List.filterMap_append, List.filterMap_cons,
          Machine.event, Event.output?]

end Conversation

namespace Machine

open Conversation

/-- A run with these inputs comes to ask for a value when `supplied` were handed in, to write
it at `destination`.  It has put out `outputs` before that, and leaves the machine so. -/
def Asks (m : Machine) (inputs : List Int) (supplied : Nat) (outputs : List Int)
    (destination : Int) (after : Machine) : Prop :=
  ∃ c, (start m inputs).Reaches c ∧ c.supplied = supplied ∧ c.outputs = outputs ∧
    c.machine.DrivesTo (.ok (.input destination)) after

/-- A request that is left behind has had its value. -/
theorem supplied_lt_of_reaches {c c' last : Conversation} {destination : Int} {after : Machine}
    (hasks : c.machine.DrivesTo (.ok (.input destination)) after) (hnext : c.Next c')
    (hreaches : c'.Reaches last) : c.supplied < last.supplied := by
  obtain ⟨result, m, hdrives, hturn⟩ := hnext
  obtain ⟨rfl, rfl⟩ := hasks.unique hdrives
  refine Nat.lt_of_lt_of_le ?_ hreaches.keeps.2.1
  rcases hpending : c.pending <;> simp only [turn, hpending] at hturn <;> cases hturn
  exact Nat.lt_succ_self _

/-- A run asks once for each of its inputs. -/
theorem asks_unique {first c c' : Conversation} {destination destination' : Int}
    {after after' : Machine} (hc : first.Reaches c) (hc' : first.Reaches c')
    (hsupplied : c.supplied = c'.supplied)
    (hasks : c.machine.DrivesTo (.ok (.input destination)) after)
    (hasks' : c'.machine.DrivesTo (.ok (.input destination')) after') : c = c' := by
  rcases hc.total hc' with hon | hback
  · rcases Relation.ReflTransGen.cases_head hon with rfl | ⟨_, hnext, hrest⟩
    · rfl
    · exact absurd hsupplied (Nat.ne_of_lt (supplied_lt_of_reaches hasks hnext hrest))
  · rcases Relation.ReflTransGen.cases_head hback with rfl | ⟨_, hnext, hrest⟩
    · rfl
    · exact absurd hsupplied (Nat.ne_of_gt (supplied_lt_of_reaches hasks' hnext hrest))

/--
**What a program does depends only on the input that it has asked for.**  A run that returns,
or fails otherwise than for want of input, has with surplus input this transcript and no other:
the same stops and outputs, the same result, the same machine.  A run that is short of input
has handed in all of it.  With surplus input the machine comes to the same request, at which it
has put out the same values and is in the same state, and to no other request of that number;
whatever the run then comes to, the values put out so far stand at the front.
-/
theorem surplus_input_is_never_looked_at {m : Machine} (hfresh : m.started = false)
    {inputs : List Int} {t : Transcript} (h : m.Transcribes inputs t) (surplus : List Int) :
    ((∀ k, t.result ≠ .error (.inputExhausted k)) →
      ∀ t', m.Transcribes (inputs ++ surplus) t' ↔ t' = t) ∧
    ∀ k, t.result = .error (.inputExhausted k) →
      k = inputs.length ∧
      (∃ destination, ∀ outputs destination' after,
        m.Asks (inputs ++ surplus) inputs.length outputs destination' after ↔
          outputs = t.outputs ∧ destination' = destination ∧ after = t.machine) ∧
      ∀ t', m.Transcribes (inputs ++ surplus) t' → t.outputs <+: t'.outputs := by
  obtain ⟨last, hlast, hcloses⟩ := (transcribes_iff hfresh inputs t).mp h
  have hmore : (start m (inputs ++ surplus)).Reaches (last.more surplus) := hlast.more surplus
  refine ⟨fun hresult t' => ?_, fun k hresult => ?_⟩
  · have hcloses' := hcloses.more hresult surplus
    rw [transcribes_iff hfresh]
    refine ⟨?_, ?_⟩
    · intro hother
      obtain ⟨last', hlast', hother⟩ := hother
      -- both ends are reached from the other
      have hthere := hcloses'.reaches hmore hlast'
      rcases Relation.ReflTransGen.cases_head hthere with rfl | ⟨_, hnext, -⟩
      · exact hother.unique hcloses'
      · exact absurd hnext hother.not_next
    · rintro rfl
      exact ⟨_, hmore, hcloses'⟩
  · obtain ⟨rfl, hpending, houtputs, destination, hasks⟩ := hcloses.of_exhausted hresult
    have hcount := hlast.keeps.1
    simp only [start, hpending, List.length_nil, Nat.add_zero, Nat.zero_add] at hcount
    refine ⟨hcount, ⟨destination, fun outputs destination' after => ⟨?_, ?_⟩⟩, fun t' h' => ?_⟩
    · intro hother
      obtain ⟨c, hc, hsupplied, rfl, hother⟩ := hother
      have hsame := asks_unique hc hmore (hsupplied.trans hcount.symm) hother hasks
      rw [hsame] at hother ⊢
      obtain ⟨hstop, rfl⟩ := hother.unique hasks
      cases hstop
      exact ⟨houtputs, rfl, rfl⟩
    · rintro ⟨rfl, rfl, rfl⟩
      exact ⟨_, hmore, hcount, houtputs, hasks⟩
    · obtain ⟨last', hlast', hcloses'⟩ := (transcribes_iff hfresh _ t').mp h'
      have hfront := hcloses'.outputs hlast' hmore
      rw [← houtputs]
      exact hfront

/-- A machine that puts out what it is handed, for ever. -/
def repeater : Machine := { memory := .ofValues [3, 9, 4, 9, 1105, 1, 0] }

/-- The repeater puts out two values and asks for a third, where a run that has one more value asks
for it as well. -/
theorem repeater_asks_again :
    repeater.started = false ∧ ∃ t, repeater.Transcribes [7, -8] t ∧ t.outputs = [7, -8] ∧
      t.result = .error (.inputExhausted 2) ∧ t.machine.pc = 2 ∧ t.machine.memory.get 9 = -8 ∧
      ∃ destination, repeater.Asks ([7, -8] ++ [5]) 2 [7, -8] destination t.machine := by
  have hrun : ∃ t, repeater.Transcribes [7, -8] t ∧ t.outputs = [7, -8] ∧
      t.result = .error (.inputExhausted 2) ∧ t.machine.pc = 2 ∧ t.machine.memory.get 9 = -8 :=
    ⟨_, ⟨5, rfl⟩, rfl, rfl, rfl, rfl⟩
  obtain ⟨t, hrun, houtputs, hresult, hpc, hvalue⟩ := hrun
  obtain ⟨-, ⟨destination, hasks⟩, -⟩ :=
    (surplus_input_is_never_looked_at (m := repeater) rfl hrun [5]).2 2 hresult
  exact ⟨rfl, t, hrun, houtputs, hresult, hpc, hvalue, destination,
    (hasks [7, -8] destination t.machine).mpr ⟨houtputs.symm, rfl, rfl⟩⟩

end Machine

end Advent.Intcode
