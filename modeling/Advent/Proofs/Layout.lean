/-
The layout of a file does not matter.

Four days read a file for its lines.  Whatever ends the lines and however blank they are, what
is read is each line without the blanks around it, blank lines left out.  So two files that
lay the same lines out differently are one puzzle input.
-/
import Advent.Proofs.Calendar
import Advent.Proofs.Text.Lines

namespace Advent

open Text Intcode

/-! ### Files

Bytes that a text was written as are read as this text, so a file may be given by its text.
-/

theorem Text.linesOfFile_toUTF8 (text : List Char) :
    linesOfFile (String.ofList text).toUTF8 = .ok ((wordsOf text).map String.ofList) := by
  rw [linesOfFile, ofFile_toUTF8, String.toList_ofList]
  exact congrArg Except.ok (nonblankLines_unified text)

/-- Lines laid out in a file are read without the blanks around them, and without blank lines. -/
theorem Text.linesOfFile_of_laid {lines : List (List Char)} {text : List Char} (h : Laid lines text) :
    linesOfFile (String.ofList text).toUTF8 = .ok ((words lines).map String.ofList) := by
  rw [linesOfFile_toUTF8, words_of_laid h]

/-! ### Days -/

namespace Day

theorem input_of_read {read : Reader} {path : String} {bytes : ByteArray}
    (h : read path = .ok bytes) : input read [path] = .ok bytes := by
  rw [input, List.headD_cons, h]
  rfl

theorem inputLines_of_read {read : Reader} {path : String} {bytes : ByteArray}
    (h : read path = .ok bytes) : inputLines read [path] = linesOfFile bytes := by
  rw [inputLines, input_of_read h]
  rfl

/-- The days that read their file for its lines. -/
def ofLines : List Day := [fuel, wires, orbits, image]

/-- Such a day looks at nothing but the lines. -/
theorem solve_of_inputLines {day : Day} (hday : day ∈ ofLines) {read read' : Reader}
    {args args' : List String} (h : inputLines read args = inputLines read' args') (steps : Nat)
    (s : Settings) : day.solve steps s read args = day.solve steps s read' args' := by
  simp only [ofLines, List.mem_cons, List.not_mem_nil, or_false] at hday
  rcases hday with rfl | rfl | rfl | rfl <;> simp only [solve, h]

end Day

/-- **Files with the same lines are the same input.**  A file that consists of some lines, each
with any ending, is read as these lines without the blanks around them, those that become empty
left out.  So the days that read lines do the same with two files whose lines differ in blank
lines and in the blanks around lines. -/
theorem lines_read_whatever_the_layout :
    (∀ lines text, Laid lines text → ∃ trimmed, List.Forall₂ Trimmed lines trimmed ∧
      linesOfFile (String.ofList text).toUTF8 =
        .ok ((trimmed.filter fun line => !line.isEmpty).map String.ofList)) ∧
    ∀ lines lines' text text', Laid lines text → Laid lines' text' → Relaid lines lines' →
      ∀ (read read' : Reader) (path path' : String),
        read path = .ok (String.ofList text).toUTF8 → read' path' = .ok (String.ofList text').toUTF8 →
        ∀ day ∈ [Day.fuel, .wires, .orbits, .image], ∀ steps s,
          day.solve steps s read [path] = day.solve steps s read' [path'] := by
  refine ⟨fun lines text hlaid => ?_, ?_⟩
  · refine ⟨lines.map trim, ?_, linesOfFile_of_laid hlaid⟩
    rw [List.forall₂_map_right_iff, List.forall₂_same]
    exact fun line _ => trim_trimmed line
  · intro lines lines' text text' hlaid hlaid' hrelaid read read' path path' hread hread' day hday
    refine Day.solve_of_inputLines hday ?_
    rw [Day.inputLines_of_read hread, Day.inputLines_of_read hread', linesOfFile_of_laid hlaid,
      linesOfFile_of_laid hlaid', hrelaid.words_eq]

/-- A file with three kinds of line endings, one of them taken for two, against a file with one
kind. -/
theorem mixed_endings_are_read_alike :
    let mixed := [' ', '1', '2', '\r', '\n', '\u2003', '\r', '\n', '1', '4']
    let plain := ['1', '2', '\n', '1', '4', '\t', '\n']
    let d := Directory.mk [(["f"], (String.ofList mixed).toUTF8)] []
    let d' := Directory.mk [(["f"], (String.ofList plain).toUTF8)] []
    (Laid [[' ', '1', '2'], [], ['\u2003'], ['1', '4']] mixed ∧
      Laid [['1', '2'], ['1', '4', '\t']] plain ∧
      Relaid [[' ', '1', '2'], [], ['\u2003'], ['1', '4']] [['1', '2'], ['1', '4', '\t']] ∧
      d.read "f" = .ok (String.ofList mixed).toUTF8 ∧ d'.read "f" = .ok (String.ofList plain).toUTF8) ∧
    (∃ trimmed, List.Forall₂ Trimmed [[' ', '1', '2'], [], ['\u2003'], ['1', '4']] trimmed ∧
      linesOfFile (String.ofList mixed).toUTF8 =
        .ok ((trimmed.filter fun line => !line.isEmpty).map String.ofList)) ∧
    ∀ day ∈ [Day.fuel, .wires, .orbits, .image],
      day.solve 0 {} d.read ["f"] = day.solve 0 {} d'.read ["f"] := by
  intro mixed plain d d'
  have hmixed : Laid [[' ', '1', '2'], [], ['\u2003'], ['1', '4']] mixed :=
    .cons .carriage (by decide) (.cons .feed (by decide) (.cons .carriageFeed (by decide)
      (.last (by decide))))
  have hplain : Laid [['1', '2'], ['1', '4', '\t']] plain :=
    .cons .feed (by decide) (.cons .feed (by decide) .nil)
  have hempty : ∀ c ∈ [], isBlank c := fun _ hc => absurd hc List.not_mem_nil
  have hblank : ∀ c ∈ ['\u2003'], isBlank c := by
    intro c hc
    obtain rfl := List.mem_singleton.mp hc
    decide
  have htrimmed : ∀ text line, trim text = line → Trimmed text line := fun _ _ => trim_eq_iff.mp
  have hrelaid : Relaid [[' ', '1', '2'], [], ['\u2003'], ['1', '4']] [['1', '2'], ['1', '4', '\t']] :=
    .line (htrimmed _ ['1', '2'] (by decide)) (htrimmed _ _ (by decide))
      (.blankLeft hempty (.blankLeft hblank
        (.line (htrimmed _ ['1', '4'] (by decide)) (htrimmed _ _ (by decide)) .nil)))
  have hread : ∀ bytes, (Directory.mk [(["f"], bytes)] []).read "f" = .ok bytes := by
    intro bytes
    have hnames : Directory.names "f" = ["f"] := by decide +kernel
    have hfile : Directory.wantsDirectory "f" = false := by decide +kernel
    have hsize : "f".utf8ByteSize = 1 := by decide
    simp [Directory.read, Directory.pathLimit, Directory.nameLimit, Directory.follow, hnames, hfile,
      hsize]
  refine ⟨⟨hmixed, hplain, hrelaid, hread _, hread _⟩,
    lines_read_whatever_the_layout.1 _ _ hmixed, fun day hday => ?_⟩
  exact lines_read_whatever_the_layout.2 _ _ _ _ hmixed hplain hrelaid d.read d'.read "f" "f"
    (hread _) (hread _) day hday 0 {}

end Advent
