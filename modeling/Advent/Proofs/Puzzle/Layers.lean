/-
What shows of a stack of layers.

The pixels of a picture are found by laying one layer after another under those on top of it.
Seen from one place this is a search: the digits that the layers have there are gone through
until one is not transparent, and a place without such a digit stays transparent
(`foldl_overlay_blocks`, by induction on the number of layers).  Laying layers under one another
is associative, and a transparent layer changes nothing, so two stacks may be composed one by one
before the upper is laid on the lower (`foldl_overlay_append`).
-/
import Mathlib.Data.List.Basic
import Advent.Puzzle.Image

namespace Advent.Puzzle.Image

/-! ### Blocks -/

theorem length_blocks (size count : Nat) (items : List Nat) :
    (blocks size count items).length = count := by
  induction count generalizing items with
  | zero => rfl
  | succ count ih => rw [blocks, List.length_cons, ih]

theorem getElem?_blocks {size count k : Nat} (hk : k < count) (items : List Nat) :
    (blocks size count items)[k]? = some ((items.drop (k * size)).take size) := by
  induction count generalizing items k with
  | zero => exact absurd hk (Nat.not_lt_zero k)
  | succ count ih =>
      cases k with
      | zero => simp [blocks]
      | succ k =>
          rw [blocks, List.getElem?_cons_succ, ih (Nat.lt_of_succ_lt_succ hk), List.drop_drop,
            Nat.succ_mul, Nat.add_comm]

theorem length_of_mem_blocks {size count : Nat} {items block : List Nat}
    (hlength : items.length = count * size) (h : block ∈ blocks size count items) :
    block.length = size := by
  induction count generalizing items with
  | zero => exact absurd h List.not_mem_nil
  | succ count ih =>
      rw [Nat.succ_mul] at hlength
      rcases List.mem_cons.mp h with rfl | hrest
      · rw [List.length_take]
        omega
      · exact ih (by rw [List.length_drop]; omega) hrest

/-- Blocks of two lists are blocks of the lists put together, if the first one leaves no rest. -/
theorem blocks_append {size : Nat} {items : List Nat} (count' : Nat) (items' : List Nat) :
    ∀ {count : Nat}, items.length = count * size →
      blocks size (count + count') (items ++ items') =
        blocks size count items ++ blocks size count' items' := by
  intro count
  induction count generalizing items with
  | zero =>
      intro hlength
      rw [Nat.zero_mul] at hlength
      rw [List.eq_nil_of_length_eq_zero hlength, Nat.zero_add]
      rfl
  | succ count ih =>
      intro hlength
      rw [Nat.succ_mul] at hlength
      have hfirst : size ≤ items.length := by omega
      rw [Nat.succ_add, blocks, blocks, List.take_append_of_le_length hfirst,
        List.drop_append_of_le_length hfirst, ih (by rw [List.length_drop]; omega), List.cons_append]

/-! ### Layers -/

/-- The digits make up one or more layers of this size. -/
def Whole (size : Nat) (digits : List Nat) : Prop := digits ≠ [] ∧ size ∣ digits.length

instance (size : Nat) (digits : List Nat) : Decidable (Whole size digits) :=
  inferInstanceAs (Decidable (_ ∧ _))

variable {size : Nat} {digits digits' : List Nat}

theorem layers_of_whole (hsize : 0 < size) (h : Whole size digits) :
    layers size digits = .ok (blocks size (digits.length / size) digits) := by
  have hmod : (digits.length : Int) % size = 0 := by exact_mod_cast Nat.mod_eq_zero_of_dvd h.2
  refine if_neg ?_
  rintro (hnot | hempty | huneven)
  · omega
  · exact h.1 hempty
  · exact huneven hmod

theorem layers_of_not_whole (h : ¬ Whole size digits) :
    layers size digits = .error (Fault.unevenLayers size digits.length).reported := by
  refine if_pos (Or.inr ?_)
  by_cases hempty : digits = []
  · exact Or.inl hempty
  · refine Or.inr fun hmod => h ⟨hempty, Nat.dvd_of_mod_eq_zero ?_⟩
    exact_mod_cast hmod

theorem Whole.append (h : Whole size digits) (h' : Whole size digits') : Whole size (digits ++ digits') := by
  refine ⟨List.append_ne_nil_of_left_ne_nil h.1 _, ?_⟩
  rw [List.length_append]
  exact Nat.dvd_add h.2 h'.2

/-! ### Layers under one another

Laying one layer under another keeps a digit of the upper one where it is not transparent.  So it
does not matter which of two neighbouring pairs is put together first, and a layer that is
transparent everywhere may be left out.
-/

theorem length_overlay (top bottom : List Nat) :
    (overlay top bottom).length = min top.length bottom.length :=
  List.length_zipWith

/-- A place shows the upper digit, unless that is transparent. -/
theorem getElem?_overlay {top bottom : List Nat} {i a b : Nat} (ha : top[i]? = some a)
    (hb : bottom[i]? = some b) :
    (overlay top bottom)[i]? = some (if a = transparent then b else a) := by
  rw [overlay, List.getElem?_zipWith, ha, hb]

/-- Three layers may be put together from either end. -/
theorem overlay_assoc (top middle bottom : List Nat) :
    overlay (overlay top middle) bottom = overlay top (overlay middle bottom) := by
  induction top generalizing middle bottom with
  | nil => rfl
  | cons a top ih =>
      cases middle with
      | nil => rfl
      | cons b middle =>
          cases bottom with
          | nil => rfl
          | cons c bottom =>
              have hfirst : (if (if a = transparent then b else a) = transparent then c
                  else if a = transparent then b else a) =
                  if a = transparent then (if b = transparent then c else b) else a := by
                by_cases ha : a = transparent <;> simp [ha]
              exact congrArg₂ List.cons hfirst (ih middle bottom)

/-- A transparent layer shows nothing. -/
theorem overlay_transparent (pixels : List Nat) :
    overlay pixels (List.replicate pixels.length transparent) = pixels := by
  induction pixels with
  | nil => rfl
  | cons a pixels ih =>
      have hfirst : (if a = transparent then transparent else a) = a := by
        by_cases ha : a = transparent <;> simp [ha]
      exact congrArg₂ List.cons hfirst ih

/-- The first layer may be laid on last. -/
theorem foldl_overlay (top bottom : List Nat) (stack : List (List Nat)) :
    stack.foldl overlay (overlay top bottom) = overlay top (stack.foldl overlay bottom) := by
  induction stack generalizing bottom with
  | nil => rfl
  | cons layer stack ih => rw [List.foldl_cons, List.foldl_cons, overlay_assoc, ih]

/-- Two stacks may be composed one by one. -/
theorem foldl_overlay_append {pixels : List Nat} (stack stack' : List (List Nat))
    (hlength : (stack.foldl overlay pixels).length = size) :
    (stack ++ stack').foldl overlay pixels =
      overlay (stack.foldl overlay pixels)
        (stack'.foldl overlay (List.replicate size transparent)) := by
  rw [List.foldl_append, ← foldl_overlay, ← hlength, overlay_transparent]

theorem length_foldl_overlay {pixels : List Nat} {stack : List (List Nat)} (hpixels : pixels.length = size)
    (hstack : ∀ layer ∈ stack, layer.length = size) : (stack.foldl overlay pixels).length = size := by
  induction stack generalizing pixels with
  | nil => exact hpixels
  | cons layer stack ih =>
      obtain ⟨hlayer, hrest⟩ := List.forall_mem_cons.mp hstack
      exact ih (by rw [length_overlay, hpixels, hlayer, Nat.min_self]) hrest

/-! ### One place

Whatever happens at a place depends on the digits there, so the stack is looked through at this
place alone, from the top on.
-/

/-- Of the digits that the layers have at a place, this is the first that is not transparent. -/
def FirstOpaque (size : Nat) (digits : List Nat) (place d : Nat) : Prop :=
  d ≠ transparent ∧ ∃ k, digits[k * size + place]? = some d ∧
    ∀ j < k, digits[j * size + place]? = some transparent

/-- A pixel of a composed picture: the first digit at its place that is not transparent, if there
is one. -/
def Shows (size : Nat) (digits : List Nat) (place d : Nat) : Prop :=
  FirstOpaque size digits place d ∨ d = transparent ∧ ∀ e, ¬ FirstOpaque size digits place e

variable {place d e : Nat}

theorem FirstOpaque.unique (h : FirstOpaque size digits place d) (h' : FirstOpaque size digits place e) :
    d = e := by
  obtain ⟨hd, k, hk, hbefore⟩ := h
  obtain ⟨he, k', hk', hbefore'⟩ := h'
  rcases Nat.lt_trichotomy k k' with hlt | rfl | hlt
  · exact absurd (Option.some.inj (hk.symm.trans (hbefore' k hlt))) hd
  · exact Option.some.inj (hk.symm.trans hk')
  · exact absurd (Option.some.inj (hk'.symm.trans (hbefore k' hlt))) he

theorem Shows.eq_iff (h : Shows size digits place d) (he : e ≠ transparent) :
    d = e ↔ FirstOpaque size digits place e := by
  rcases h with hfirst | ⟨rfl, hnone⟩
  · exact ⟨fun hde => hde ▸ hfirst, hfirst.unique⟩
  · exact ⟨fun hde => absurd hde.symm he, fun hfirst => absurd hfirst (hnone e)⟩

/-- The first layer is looked at first. -/
theorem firstOpaque_iff {a : Nat} (ha : digits[place]? = some a) :
    FirstOpaque size digits place d ↔
      if a = transparent then FirstOpaque size (digits.drop size) place d else d = a := by
  have hdrop : ∀ k, (digits.drop size)[k * size + place]? = digits[(k + 1) * size + place]? := by
    intro k
    rw [List.getElem?_drop, Nat.succ_mul]
    congr 1
    omega
  by_cases htransparent : a = transparent
  · rw [if_pos htransparent]
    subst htransparent
    refine and_congr_right fun hd => ⟨?_, ?_⟩
    -- the first layer has no opaque digit here, so the one found lies in a later layer
    · rintro ⟨k, hk, hbefore⟩
      cases k with
      | zero =>
          rw [Nat.zero_mul, Nat.zero_add, ha] at hk
          exact absurd (Option.some.inj hk).symm hd
      | succ k =>
          refine ⟨k, (hdrop k).trans hk, fun j hj => ?_⟩
          exact (hdrop j).trans (hbefore (j + 1) (Nat.succ_lt_succ hj))
    · rintro ⟨k, hk, hbefore⟩
      refine ⟨k + 1, (hdrop k).symm.trans hk, fun j hj => ?_⟩
      cases j with
      | zero => rwa [Nat.zero_mul, Nat.zero_add]
      | succ j => exact (hdrop j).symm.trans (hbefore j (Nat.lt_of_succ_lt_succ hj))
  · rw [if_neg htransparent]
    have hfirst : FirstOpaque size digits place a := by
      refine ⟨htransparent, 0, ?_, fun j hj => absurd hj (Nat.not_lt_zero j)⟩
      rwa [Nat.zero_mul, Nat.zero_add]
    refine ⟨fun h => h.unique hfirst, ?_⟩
    rintro rfl
    exact hfirst

theorem shows_iff {a : Nat} (ha : digits[place]? = some a) :
    Shows size digits place d ↔
      if a = transparent then Shows size (digits.drop size) place d else d = a := by
  unfold Shows
  simp only [firstOpaque_iff ha]
  by_cases htransparent : a = transparent
  · simp only [if_pos htransparent]
  · simp only [if_neg htransparent]
    exact or_iff_left fun hnone => hnone.2 a rfl

/-- **What shows at a place is the first digit there that is not transparent.**  Whatever lies on
top of the layers is looked at before them. -/
theorem foldl_overlay_blocks {pixels : List Nat} {count a : Nat} (hplace : place < size)
    (hlength : digits.length = count * size) (ha : pixels[place]? = some a) :
    ∃ d, ((blocks size count digits).foldl overlay pixels)[place]? = some d ∧
      if a = transparent then Shows size digits place d else d = a := by
  induction count generalizing digits pixels a with
  | zero =>
      refine ⟨a, ha, ?_⟩
      have hempty : digits = [] := List.eq_nil_of_length_eq_zero (by omega)
      by_cases htransparent : a = transparent
      · rw [if_pos htransparent]
        refine Or.inr ⟨htransparent, ?_⟩
        rintro e ⟨-, k, hk, -⟩
        simp [hempty] at hk
      · rw [if_neg htransparent]
  | succ count ih =>
      rw [Nat.succ_mul] at hlength
      have hfirst : place < digits.length := by omega
      have hb := List.getElem?_eq_getElem hfirst
      have hlayer : (digits.take size)[place]? = some digits[place] :=
        (List.getElem?_take_of_lt hplace).trans hb
      have hrest : (digits.drop size).length = count * size := by
        rw [List.length_drop]
        omega
      obtain ⟨d, hd, hshows⟩ := ih hrest (getElem?_overlay ha hlayer)
      refine ⟨d, hd, ?_⟩
      by_cases htransparent : a = transparent
      · rw [if_pos htransparent] at hshows ⊢
        exact (shows_iff hb).mpr hshows
      · rw [if_neg htransparent] at hshows ⊢
        rwa [if_neg htransparent] at hshows

end Advent.Puzzle.Image
