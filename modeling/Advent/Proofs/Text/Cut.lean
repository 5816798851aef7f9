/-
Texts cut at their ends and at separators.

Trimming takes off all the blanks that there are and nothing else, and splitting at a
character undoes joining with it.  So a cut can be described by the parts that it leaves.
-/
import Mathlib.Data.List.DropRight
import Advent.Text.Blank

namespace Advent.Text

/-! ### Blanks at the end -/

/-- The text is `line` with nothing but blanks after it, and `line` does not end in one. -/
structure EndsAt (text line : List Char) : Prop where
  trailing : ∃ blanks, text = line ++ blanks ∧ ∀ c ∈ blanks, isBlank c
  last : ∀ hne : line ≠ [], ¬ isBlank (line.getLast hne)

/-- Trimming leaves what comes before the blanks at the end. -/
theorem trimEnd_endsAt (text : List Char) : EndsAt text (trimEnd text) := by
  refine ⟨⟨text.rtakeWhile isBlank, ?_, fun c hc => List.mem_rtakeWhile_imp hc⟩, ?_⟩
  · exact List.rdropWhile_append_rtakeWhile.symm
  · exact fun hne => List.rdropWhile_last_not isBlank text hne

theorem trimEnd_append_blanks (line : List Char) {blanks : List Char}
    (hblanks : ∀ c ∈ blanks, isBlank c) : trimEnd (line ++ blanks) = trimEnd line := by
  rw [trimEnd, trimEnd, List.reverse_append,
    List.dropWhile_append_of_pos fun c hc => hblanks c (List.mem_reverse.mp hc)]

/-- Nothing else is left by trimming. -/
theorem EndsAt.trimEnd_eq {text line : List Char} (h : EndsAt text line) : trimEnd text = line := by
  obtain ⟨⟨blanks, rfl, hblanks⟩, hlast⟩ := h
  rw [trimEnd_append_blanks line hblanks]
  exact List.rdropWhile_eq_self_iff.mpr hlast

theorem trim_infix (text : List Char) : trim text <:+: text := by
  have hend : trim text <+: text.dropWhile isBlank :=
    List.rdropWhile_prefix isBlank (text.dropWhile isBlank)
  exact hend.isInfix.trans (List.dropWhile_suffix isBlank).isInfix

/-! ### Separators

A text is split at every separator there is.  So no part has one, and each part can be found in the
text where it was.
-/

theorem not_mem_of_mem_splitOn {separator : Char} {part : List Char} :
    ∀ {text : List Char}, part ∈ text.splitOn separator → separator ∉ part := by
  intro text
  induction text generalizing part with
  | nil =>
      intro hpart
      simp_all
  | cons c text ih =>
      intro hpart
      rw [List.splitOn_cons_eq_if_modifyHead] at hpart
      by_cases hc : c = separator
      · rw [if_pos (beq_iff_eq.mpr hc)] at hpart
        rcases List.mem_cons.mp hpart with rfl | hrest
        · exact List.not_mem_nil
        · exact ih hrest
      · rw [if_neg (by simpa using hc)] at hpart
        obtain ⟨first, others, hsplit⟩ :=
          List.exists_cons_of_ne_nil (List.splitOn_ne_nil separator text)
        rw [hsplit] at hpart ih
        rcases List.mem_cons.mp hpart with rfl | hrest
        · have hfirst := ih List.mem_cons_self
          simpa [Ne.symm hc] using hfirst
        · exact ih (List.mem_cons_of_mem first hrest)

theorem mem_of_mem_intercalate {separator c : Char} {parts : List (List Char)}
    (h : c ∈ [separator].intercalate parts) : c = separator ∨ ∃ part ∈ parts, c ∈ part := by
  induction parts with
  | nil => exact absurd h List.not_mem_nil
  | cons part rest ih =>
      by_cases hrest : rest = []
      · subst hrest
        rw [List.intercalate_singleton] at h
        exact Or.inr ⟨part, List.mem_cons_self, h⟩
      · rw [List.intercalate_cons_of_ne_nil hrest, List.mem_append, List.mem_append] at h
        rcases h with (hpart | hseparator) | hrest
        · exact Or.inr ⟨part, List.mem_cons_self, hpart⟩
        · exact Or.inl (List.mem_singleton.mp hseparator)
        · rcases ih hrest with hc | ⟨other, hother, hc⟩
          · exact Or.inl hc
          · exact Or.inr ⟨other, List.mem_cons_of_mem part hother, hc⟩

theorem infix_intercalate {separator : Char} {part : List Char} {parts : List (List Char)}
    (h : part ∈ parts) : part <:+: [separator].intercalate parts := by
  induction parts with
  | nil => exact absurd h List.not_mem_nil
  | cons first rest ih =>
      by_cases hrest : rest = []
      · subst hrest
        obtain rfl := List.mem_singleton.mp h
        exact ⟨[], [], by simp⟩
      · rw [List.intercalate_cons_of_ne_nil hrest]
        rcases List.mem_cons.mp h with rfl | hpart
        · rw [List.append_assoc]
          exact (List.prefix_append part _).isInfix
        · exact (ih hpart).trans (List.suffix_append _ _).isInfix

/-- A part is found in the text. -/
theorem infix_of_mem_splitOn {separator : Char} {part text : List Char}
    (h : part ∈ text.splitOn separator) : part <:+: text := by
  have hjoined : [separator].intercalate (text.splitOn separator) = text :=
    List.intercalate_splitOn separator
  exact hjoined ▸ infix_intercalate h

end Advent.Text
