/-
Lines as they stand in a text.

A line of a text is followed by a line feed, by a carriage return, or by both, and the last
line may also be followed by nothing.  `Laid` is that a text consists of some lines, each
with an ending of its own.  It does not determine the lines: a carriage return before an
empty line with a line feed is the same two characters as one ending made of both.  What is
read from the text is the same either way, because an empty line is not read.

`words_of_laid` is that the lines are read back without the blanks around them and without
those that had nothing else, and `Relaid.words_eq` that nothing more of them is read.
-/
import Advent.Files
import Advent.Proofs.Text.Cut

namespace Advent.Text

/-! ### Trimming -/

/-- The text is `line` between blanks, and `line` neither begins nor ends with one. -/
structure Trimmed (text line : List Char) : Prop where
  around : ∃ before after, text = before ++ line ++ after ∧ (∀ c ∈ before, isBlank c) ∧
    ∀ c ∈ after, isBlank c
  first : ∀ hne : line ≠ [], ¬ isBlank (line.head hne)
  last : ∀ hne : line ≠ [], ¬ isBlank (line.getLast hne)

theorem trim_trimmed (text : List Char) : Trimmed text (trim text) := by
  obtain ⟨⟨after, hafter, hblank⟩, hlast⟩ := trimEnd_endsAt (text.dropWhile isBlank)
  refine ⟨⟨text.takeWhile isBlank, after, ?_, fun c hc => List.mem_takeWhile_imp hc, hblank⟩, ?_, hlast⟩
  · rw [List.append_assoc, trim, ← hafter, List.takeWhile_append_dropWhile]
  · -- what is left after the blanks in front begins as the trimmed text does
    intro hne
    obtain ⟨c, rest, htrim⟩ := List.exists_cons_of_ne_nil hne
    have hdrop : text.dropWhile isBlank = c :: (rest ++ after) := by
      rw [hafter, ← trim, htrim, List.cons_append]
    have hfirst := List.head_dropWhile_not isBlank (hdrop ▸ List.cons_ne_nil c (rest ++ after))
    simp only [hdrop, List.head_cons] at hfirst
    simp only [htrim, List.head_cons, hfirst]
    decide

theorem Trimmed.trim_eq {text line : List Char} (h : Trimmed text line) : trim text = line := by
  obtain ⟨⟨before, after, rfl, hbefore, hafter⟩, hfirst, hlast⟩ := h
  rw [trim, List.append_assoc, List.dropWhile_append_of_pos hbefore]
  cases line with
  | nil =>
      rw [List.nil_append, List.dropWhile_eq_nil_iff.mpr hafter]
      rfl
  | cons c rest =>
      have hc : ¬ isBlank c := hfirst (List.cons_ne_nil c rest)
      rw [List.cons_append, List.dropWhile_cons_of_neg hc]
      exact EndsAt.trimEnd_eq ⟨⟨after, rfl, hafter⟩, hlast⟩

/-- Trimming takes away the blanks at both ends, and nothing else. -/
theorem trim_eq_iff {text line : List Char} : trim text = line ↔ Trimmed text line := by
  refine ⟨?_, Trimmed.trim_eq⟩
  rintro rfl
  exact trim_trimmed text

/-! ### The lines that are read -/

/-- What is read of some lines: each without the blanks around it, if it has anything else. -/
def words (lines : List (List Char)) : List (List Char) :=
  (lines.map trim).filter fun line => !line.isEmpty

theorem words_append (lines lines' : List (List Char)) :
    words (lines ++ lines') = words lines ++ words lines' := by
  rw [words, List.map_append, List.filter_append]
  rfl

theorem words_cons (line : List Char) (lines : List (List Char)) :
    words (line :: lines) = words [line] ++ words lines :=
  words_append [line] lines

/-- What is read of a text. -/
def wordsOf (text : List Char) : List (List Char) := words ((unifyNewlines text).splitOn '\n')

theorem nonblankLines_unified (text : List Char) :
    nonblankLines (String.ofList (unifyNewlines text)) = (wordsOf text).map String.ofList := by
  rw [nonblankLines, String.toList_ofList]
  rfl

/-! ### Line endings

Before a text is split, a carriage return is turned into a line feed and takes a line feed behind it
along.  So each of the three endings becomes one line feed, whichever lines it stands between.
-/

/-- What may follow a line. -/
inductive LineEnding where
  | feed
  | carriage
  | carriageFeed
  deriving DecidableEq, Repr

/-- The characters of a line ending. -/
def LineEnding.chars : LineEnding → List Char
  | feed => ['\n']
  | carriage => ['\r']
  | carriageFeed => ['\r', '\n']

/-- No character of the line belongs to a line ending. -/
def IsLine (line : List Char) : Prop := '\r' ∉ line ∧ '\n' ∉ line

instance : DecidablePred IsLine := fun _ => inferInstanceAs (Decidable (_ ∧ _))

/-- The text consists of these lines, each with an ending, which the last may lack. -/
inductive Laid : List (List Char) → List Char → Prop where
  | nil : Laid [] []
  | last {line : List Char} (hline : IsLine line) : Laid [line] line
  | cons {line text : List Char} {lines : List (List Char)} (ending : LineEnding)
      (hline : IsLine line) (hrest : Laid lines text) :
      Laid (line :: lines) (line ++ ending.chars ++ text)

theorem unifyNewlines_cons {c : Char} (hc : c ≠ '\r') (text : List Char) :
    unifyNewlines (c :: text) = c :: unifyNewlines text := by
  exact unifyNewlines.eq_3 c text (fun _ h => absurd h hc) hc

/-- A line is left as it is when the endings are unified. -/
theorem unifyNewlines_append {line : List Char} (hline : IsLine line) (text : List Char) :
    unifyNewlines (line ++ text) = line ++ unifyNewlines text := by
  induction line with
  | nil => rfl
  | cons c rest ih =>
      obtain ⟨hreturn, hfeed⟩ := hline
      rw [List.mem_cons, not_or] at hreturn hfeed
      rw [List.cons_append, unifyNewlines_cons (Ne.symm hreturn.1), ih ⟨hreturn.2, hfeed.2⟩,
        List.cons_append]

/-- A line is read by itself when what follows it begins like a line feed. -/
theorem wordsOf_append {line ended text : List Char} (hline : IsLine line)
    (hended : unifyNewlines ended = '\n' :: unifyNewlines text) :
    wordsOf (line ++ ended) = words [line] ++ wordsOf text := by
  rw [wordsOf, unifyNewlines_append hline, hended, List.splitOn_append_cons_self_of_not_mem hline.2,
    words_cons]
  rfl

theorem wordsOf_feed (text : List Char) : wordsOf ('\n' :: text) = wordsOf text := by
  have hempty : IsLine [] := ⟨List.not_mem_nil, List.not_mem_nil⟩
  exact wordsOf_append hempty (unifyNewlines_cons (by decide) text)

/-- A line with its ending is read by itself, and what follows by itself. -/
theorem wordsOf_ended {line : List Char} (hline : IsLine line) (ending : LineEnding)
    (text : List Char) :
    wordsOf (line ++ ending.chars ++ text) = words [line] ++ wordsOf text := by
  rw [List.append_assoc]
  cases ending with
  | feed => exact wordsOf_append hline (unifyNewlines_cons (by decide) text)
  | carriageFeed => exact wordsOf_append hline (unifyNewlines.eq_1 text)
  | carriage =>
      by_cases hfeed : ∃ rest, text = '\n' :: rest
      · -- the carriage return takes the line feed of the next line, which is empty, for its own
        obtain ⟨rest, rfl⟩ := hfeed
        rw [wordsOf_feed]
        exact wordsOf_append hline (unifyNewlines.eq_1 rest)
      · refine wordsOf_append hline (unifyNewlines.eq_2 text fun rest h => hfeed ⟨rest, h⟩)

/-- **The lines of a text are read back**, by induction on how they are laid out. -/
theorem words_of_laid {lines : List (List Char)} {text : List Char} (h : Laid lines text) :
    wordsOf text = words lines := by
  induction h with
  | nil => decide
  | @last line hline =>
      have hunified := unifyNewlines_append hline []
      rw [List.append_nil] at hunified
      rw [wordsOf, hunified, unifyNewlines, List.append_nil, List.splitOn_eq_singleton hline.2]
  | @cons line text lines ending hline hrest ih =>
      rw [wordsOf_ended hline, ih, words_cons line lines]

/-! ### Two layouts of the same lines -/

/-- The lines differ in blank lines and in the blanks around lines, and in nothing else. -/
inductive Relaid : List (List Char) → List (List Char) → Prop where
  | nil : Relaid [] []
  | blankLeft {blank : List Char} {lines lines' : List (List Char)}
      (hblank : ∀ c ∈ blank, isBlank c) (hrest : Relaid lines lines') : Relaid (blank :: lines) lines'
  | blankRight {blank : List Char} {lines lines' : List (List Char)}
      (hblank : ∀ c ∈ blank, isBlank c) (hrest : Relaid lines lines') : Relaid lines (blank :: lines')
  | line {text text' line : List Char} {lines lines' : List (List Char)} (htext : Trimmed text line)
      (htext' : Trimmed text' line) (hrest : Relaid lines lines') :
      Relaid (text :: lines) (text' :: lines')

theorem words_blank {blank : List Char} (h : ∀ c ∈ blank, isBlank c) : words [blank] = [] := by
  have htrimmed : Trimmed blank [] := ⟨⟨blank, [], by simp, h, by simp⟩, by simp, by simp⟩
  simp [words, htrimmed.trim_eq]

/-- **Lines that are laid out anew are read alike.** -/
theorem Relaid.words_eq {lines lines' : List (List Char)} (h : Relaid lines lines') :
    words lines = words lines' := by
  induction h with
  | nil => rfl
  | blankLeft hblank _ ih => rw [words_cons, words_blank hblank, ih, List.nil_append]
  | @blankRight blank lines lines' hblank _ ih =>
      rw [words_cons blank, words_blank hblank, ih, List.nil_append]
  | @line text text' _ lines lines' htext htext' _ ih =>
      have hline : words [text] = words [text'] := by
        rw [words, words, List.map_singleton, List.map_singleton, htext.trim_eq, htext'.trim_eq]
      rw [words_cons text, words_cons text', ih, hline]

end Advent.Text
