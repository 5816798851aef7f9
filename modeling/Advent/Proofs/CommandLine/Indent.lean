/-
Indentation and how to undo it.

The lines of an answer are set below the first, each three blanks to the right.  A text that
consists of lines with something in them, joined by line feeds, is cut into just these lines
(`splitLines_intercalate`), so its indentation puts three blanks after each line feed and nothing
else, and `outdent` takes them away again.  A line that begins with blanks of its own keeps them.
-/
import Mathlib.Data.List.Basic
import Advent.CommandLine.Session

namespace Advent

/-! ### Lines on display

A text is cut at every character that ends a line.  Lines with something in them and no such
character come out of the cut as they went in, which an empty last line would not.
-/

namespace Text

/-- The line has characters, and none of them ends a line. -/
def DisplayLine (line : List Char) : Prop := line ≠ [] ∧ ∀ c ∈ line, ¬ isLineEnd c

theorem splitLines_singleton {c : Char} (hc : ¬ isLineEnd c) : splitLines [c] = [[c]] := by
  rw [splitLines.eq_3 c [] fun _ _ h => List.cons_ne_nil _ _ h.symm, if_neg hc, splitLines]

theorem splitLines_cons {c : Char} (hc : ¬ isLineEnd c) {rest line : List Char}
    {lines : List (List Char)} (h : splitLines rest = line :: lines) :
    splitLines (c :: rest) = (c :: line) :: lines := by
  have hreturn : c ≠ '\r' := by
    rintro rfl
    exact hc (by decide)
  rw [splitLines.eq_3 c rest fun _ h => absurd h hreturn, if_neg hc, h]

theorem splitLines_feed (rest : List Char) : splitLines ('\n' :: rest) = [] :: splitLines rest := by
  rw [splitLines.eq_3 '\n' rest fun _ h => absurd h (by decide), if_pos (by decide)]

/-- A line without a line end is cut off at the line feed after it. -/
theorem splitLines_append {line : List Char} (hline : ∀ c ∈ line, ¬ isLineEnd c) (rest : List Char) :
    splitLines (line ++ '\n' :: rest) = line :: splitLines rest := by
  induction line with
  | nil => exact splitLines_feed rest
  | cons c line ih =>
      obtain ⟨hc, hline⟩ := List.forall_mem_cons.mp hline
      rw [List.cons_append, splitLines_cons hc (ih hline)]

theorem splitLines_of_displayLine {line : List Char} (h : DisplayLine line) : splitLines line = [line] := by
  obtain ⟨hne, hline⟩ := h
  induction line with
  | nil => exact absurd rfl hne
  | cons c line ih =>
      obtain ⟨hc, hline⟩ := List.forall_mem_cons.mp hline
      cases line with
      | nil => exact splitLines_singleton hc
      | cons c' line => exact splitLines_cons hc (ih (List.cons_ne_nil c' line) hline)

/-- **Lines that are joined by line feeds are cut apart again.** -/
theorem splitLines_intercalate {lines : List (List Char)} (h : ∀ line ∈ lines, DisplayLine line) :
    splitLines (['\n'].intercalate lines) = lines := by
  induction lines with
  | nil => rfl
  | cons line rest ih =>
      obtain ⟨hline, hrest⟩ := List.forall_mem_cons.mp h
      by_cases hlast : rest = []
      · rw [hlast, List.intercalate_singleton, splitLines_of_displayLine hline]
      · rw [List.intercalate_cons_of_ne_nil hlast, List.append_assoc, List.singleton_append,
          splitLines_append hline.2, ih hrest]

end Text

/-! ### Indentation -/

namespace CommandLine

open Text

/-- The text without the three blanks after each line feed that has them. -/
def outdent : List Char → List Char
  | '\n' :: ' ' :: ' ' :: ' ' :: rest => '\n' :: outdent rest
  | c :: rest => c :: outdent rest
  | [] => []

theorem outdent_cons {c : Char} (hc : c ≠ '\n') (rest : List Char) :
    outdent (c :: rest) = c :: outdent rest :=
  outdent.eq_2 c rest fun _ h => absurd h hc

/-- What has no line feed has nothing to be taken away. -/
theorem outdent_append {line : List Char} (hline : ∀ c ∈ line, ¬ isLineEnd c) (rest : List Char) :
    outdent (line ++ rest) = line ++ outdent rest := by
  induction line with
  | nil => rfl
  | cons c line ih =>
      obtain ⟨hc, hline⟩ := List.forall_mem_cons.mp hline
      have hfeed : c ≠ '\n' := by
        rintro rfl
        exact hc (by decide)
      rw [List.cons_append, outdent_cons hfeed, ih hline, List.cons_append]

theorem outdent_intercalate {lines : List (List Char)} (h : ∀ line ∈ lines, DisplayLine line) :
    outdent (['\n', ' ', ' ', ' '].intercalate lines) = ['\n'].intercalate lines := by
  induction lines with
  | nil => rfl
  | cons line rest ih =>
      obtain ⟨hline, hrest⟩ := List.forall_mem_cons.mp h
      by_cases hlast : rest = []
      · rw [hlast, List.intercalate_singleton, List.intercalate_singleton]
        simpa [outdent] using outdent_append hline.2 []
      · rw [List.intercalate_cons_of_ne_nil hlast, List.intercalate_cons_of_ne_nil hlast,
          List.append_assoc, outdent_append hline.2, ← ih hrest, List.append_assoc]
        rfl

/-- Indentation puts three blanks after every line feed. -/
theorem toList_indent (text : String) :
    (indent text).toList = ['\n', ' ', ' ', ' '].intercalate (splitLines text.toList) := by
  rw [indent, String.toList_intercalate, List.map_map]
  simp [Function.comp_def]

/-- **Taking the indentation away gives the text back.** -/
theorem outdent_indent {text : String} {lines : List (List Char)} (h : ∀ line ∈ lines, DisplayLine line)
    (htext : text.toList = ['\n'].intercalate lines) : outdent (indent text).toList = text.toList := by
  rw [toList_indent, htext, splitLines_intercalate h, outdent_intercalate h]

end CommandLine

end Advent
