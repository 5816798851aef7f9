/-
Program texts are read exactly.

A program text is a line and the blanks after it, and the line is tokens with commas in
between.  `Parts` says this without saying how a text is taken apart.  Every token is either
the literal of one integer or none; so the tokens are the text of a program when all of them
are literals and none is too long, and otherwise the leftmost one that is not decides what is
wrong.  The text of a program, blanks after it or not, is therefore read as that program.
-/
import Mathlib.Data.List.Forall2
import Advent.Proofs.Intcode.Memory
import Advent.Proofs.Numeral
import Advent.Proofs.Text.Tokens
import Advent.Intcode.Program

namespace Advent.Intcode

namespace Program

open Numeral (Literal)

/-! ### Parts of a text

Every text has parts, and reading it comes to reading them.  So what is said of parts is said of all
texts, whichever way they are taken apart.
-/

/-- The line of a text and its tokens. -/
structure Parts (text : String) (line : List Char) (tokens : List (List Char)) : Prop where
  endsAt : Text.EndsAt text.toList line
  joined : [','].intercalate tokens = line
  tokens_ne_nil : tokens ≠ []
  not_comma : ∀ token ∈ tokens, ',' ∉ token

theorem exists_parts (text : String) : ∃ line tokens, Parts text line tokens :=
  ⟨Text.trimEnd text.toList, (Text.trimEnd text.toList).splitOn ',',
    { endsAt := Text.trimEnd_endsAt text.toList
      joined := List.intercalate_splitOn ','
      tokens_ne_nil := List.splitOn_ne_nil ',' _
      not_comma := fun _ => Text.not_mem_of_mem_splitOn }⟩

/-- Reading a text is reading the tokens of its line, unless that is empty. -/
theorem Parts.parse_eq {text : String} {line : List Char} {tokens : List (List Char)}
    (h : Parts text line tokens) :
    parse text = if line = [] then .error .emptyProgram else readTokens 0 tokens := by
  have hsplit : line.splitOn ',' = tokens := by
    rw [← h.joined, List.splitOn_intercalate ',' h.not_comma h.tokens_ne_nil]
  simp [parse, h.endsAt.trimEnd_eq, hsplit, Fault.raise, Fault.reported, Fault.integers]

/-! ### Tokens -/

/-- The token is a literal that is not too long, and this is its value. -/
def Reads (token : List Char) (n : Int) : Prop :=
  ∃ digits, Literal token digits n ∧ digits.length ≤ Numeral.maxDigits

/-- What is wrong with a token, the `position`-th of its line: it is no literal, or one that is
too long. -/
inductive Refused (token : List Char) (position : Nat) : Fault → Prop where
  | malformed (hnone : ∀ digits n, ¬ Literal token digits n) :
      Refused token position (.badToken (String.ofList token) position)
  | oversize {digits : List Char} {n : Int} (hliteral : Literal token digits n)
      (hlength : Numeral.maxDigits < digits.length) :
      Refused token position (.unreadable (.oversize digits.length))

variable {token : List Char} {position : Nat}

theorem reads_iff {n : Int} :
    Reads token n ↔ Numeral.isDigits (Numeral.takeSign token).2 = true ∧
      (Numeral.takeSign token).2.length ≤ Numeral.maxDigits ∧
      n = Numeral.signed (Numeral.takeSign token).1
        (Numeral.placeValue (Numeral.takeSign token).2) := by
  simp only [Reads, Numeral.literal_iff]
  refine ⟨?_, fun ⟨hdigits, hlength, hn⟩ => ⟨_, ⟨rfl, hdigits, hn⟩, hlength⟩⟩
  rintro ⟨digits, ⟨rfl, hdigits, hn⟩, hlength⟩
  exact ⟨hdigits, hlength, hn⟩

theorem refused_iff {fault : Fault} :
    Refused token position fault ↔
      (Numeral.isDigits (Numeral.takeSign token).2 = false ∧
        fault = .badToken (String.ofList token) position) ∨
      (Numeral.isDigits (Numeral.takeSign token).2 = true ∧
        Numeral.maxDigits < (Numeral.takeSign token).2.length ∧
        fault = .unreadable (.oversize (Numeral.takeSign token).2.length)) := by
  refine ⟨?_, ?_⟩
  · intro h
    cases h with
    | malformed hnone =>
        refine Or.inl ⟨Bool.eq_false_iff.mpr fun hdigits => ?_, rfl⟩
        exact hnone _ _ (Numeral.literal_iff.mpr ⟨rfl, hdigits, rfl⟩)
    | oversize hliteral hlength =>
        obtain ⟨rfl, hdigits, -⟩ := Numeral.literal_iff.mp hliteral
        exact Or.inr ⟨hdigits, hlength, rfl⟩
  · rintro (⟨hdigits, rfl⟩ | ⟨hdigits, hlength, rfl⟩)
    · refine .malformed fun digits n hliteral => ?_
      obtain ⟨rfl, hdigits', -⟩ := Numeral.literal_iff.mp hliteral
      exact Bool.false_ne_true (hdigits.symm.trans hdigits')
    · exact .oversize (Numeral.literal_iff.mpr ⟨rfl, hdigits, rfl⟩) hlength

/-- A token is read as the integer that it is a literal of, or refused. -/
theorem readToken_iff (position : Nat) (token : List Char) :
    (∀ n, readToken position token = .ok n ↔ Reads token n) ∧
      ∀ fault, readToken position token = .error fault ↔ Refused token position fault := by
  simp only [reads_iff, refused_iff]
  unfold readToken
  by_cases hdigits : Numeral.isDigits (Numeral.takeSign token).2
  · cases hvalue : Numeral.ofDigits (Numeral.takeSign token).2 with
    | ok value =>
        obtain ⟨hlength, rfl⟩ := Numeral.ofDigits_eq_ok_iff.mp hvalue
        simp [hdigits, hvalue, hlength, eq_comm]
    | error defect =>
        obtain ⟨hlength, rfl⟩ := Numeral.ofDigits_eq_error_iff.mp hvalue
        simp [hdigits, hvalue, hlength, Fault.raise, Fault.reported, Fault.integers, eq_comm]
  · simp [hdigits, Fault.raise, Fault.reported, Fault.integers, eq_comm]

/-! ### Lines -/

theorem readTokens_in_order : Text.ReadsInOrder readToken readTokens :=
  ⟨fun _ => rfl, fun _ _ _ => rfl⟩

theorem readTokens_eq_ok_iff {tokens : List (List Char)} {values : List Int} :
    readTokens position tokens = .ok values ↔ List.Forall₂ Reads tokens values :=
  readTokens_in_order.eq_ok_iff fun n token => (readToken_iff n token).1

/-- The leftmost token that is refused decides. -/
theorem readTokens_eq_error_iff {tokens : List (List Char)} {fault : Fault} :
    readTokens position tokens = .error fault ↔
      ∃ before token after, tokens = before ++ token :: after ∧
        (∀ t ∈ before, ∃ n, Reads t n) ∧ Refused token (position + before.length) fault := by
  rw [readTokens_in_order.eq_error_iff fun n token => (readToken_iff n token).1]
  simp only [(readToken_iff _ _).2]

/-! ### Written programs

A written program consists of literals with commas in between.  No literal has a comma or a blank in
it, so the program comes apart again into the literals that it was put together from.
-/

theorem Reads.write {n : Int} (hn : Numeral.fits n) : Reads (Numeral.write n).toList n :=
  ⟨_, Numeral.literal_write n, (Numeral.fits_iff_length_toDigits n).mp hn⟩

theorem not_blank_of_mem_write {values : List Int} {c : Char} (h : c ∈ (write values).toList) :
    ¬ Text.isBlank c := by
  rw [write, String.toList_intercalate, List.map_map] at h
  refine Text.not_blank_of_mem_joined (fun token htoken c hc => ?_) h
  obtain ⟨n, -, rfl⟩ := List.mem_map.mp htoken
  rcases Numeral.mem_write hc with rfl | hdigit
  · decide
  · exact Text.not_blank_of_isDigit hdigit

theorem toList_write_ne_nil {values : List Int} (hne : values ≠ []) : (write values).toList ≠ [] := by
  obtain ⟨n, rest, rfl⟩ := List.exists_cons_of_ne_nil hne
  rw [write, String.toList_intercalate]
  cases rest with
  | nil => simpa using Numeral.toList_write_ne_nil n
  | cons n' rest => simp

theorem parts_write {values : List Int} {blanks : List Char} (hne : values ≠ [])
    (hblanks : ∀ c ∈ blanks, Text.isBlank c) :
    Parts (write values ++ String.ofList blanks) (write values).toList
      (values.map fun n => (Numeral.write n).toList) := by
  have hjoined : [','].intercalate (values.map fun n => (Numeral.write n).toList) =
      (write values).toList := by
    simp [write, String.toList_intercalate, List.map_map, Function.comp_def]
  refine ⟨⟨⟨blanks, ?_, hblanks⟩, ?_⟩, hjoined, ?_, ?_⟩
  · rw [String.toList_append, String.toList_ofList]
  · exact fun hline => not_blank_of_mem_write (List.getLast_mem hline)
  · simpa using hne
  · intro token htoken hcomma
    obtain ⟨n, -, rfl⟩ := List.mem_map.mp htoken
    rcases Numeral.mem_write hcomma with hminus | hdigit
    · exact absurd hminus (by decide)
    · exact absurd hdigit (by decide)

/-- **A program that was written is read back.** -/
theorem parse_write {values : List Int} {blanks : List Char} (hne : values ≠ [])
    (hfits : ∀ n ∈ values, Numeral.fits n) (hblanks : ∀ c ∈ blanks, Text.isBlank c) :
    parse (write values ++ String.ofList blanks) = .ok values := by
  rw [(parts_write hne hblanks).parse_eq, if_neg (toList_write_ne_nil hne), readTokens_eq_ok_iff,
    List.forall₂_map_left_iff, List.forall₂_same]
  exact fun n hn => Reads.write (hfits n hn)

end Program

theorem Machine.ofValues_eq_ok {values : List Int} (hne : values ≠ []) (bounded : Bool) :
    ofValues bounded values = .ok { memory := .ofValues values, bounded } := by
  refine if_neg ?_
  rw [Memory.extent_ofValues]
  simpa using hne

namespace Program

/--
**A program text is read exactly.**  Every text has a line and tokens.  If the line is empty,
there is no program.  Otherwise the text is that of the program whose values its tokens are
literals of, one value for each token and in the order of the tokens; or else the leftmost
token that is no literal, or too long, decides what is wrong.  In particular the text of a
program is read as that program, whatever blanks follow it, and loads the same machine.
-/
theorem parse_exact (text : String) :
    (∃ line tokens, Parts text line tokens) ∧
    (∀ line tokens, Parts text line tokens →
      (line = [] → parse text = .error .emptyProgram) ∧
      (line ≠ [] →
        (∀ values, parse text = .ok values ↔ List.Forall₂ Reads tokens values) ∧
        ∀ fault, parse text = .error fault ↔
          ∃ before token after, tokens = before ++ token :: after ∧
            (∀ t ∈ before, ∃ n, Reads t n) ∧ Refused token before.length fault)) ∧
    ∀ values blanks, values ≠ [] → (∀ n ∈ values, Numeral.fits n) → (∀ c ∈ blanks, Text.isBlank c) →
      text = write values ++ String.ofList blanks →
        parse text = .ok values ∧
        ∀ bounded, ∃ m, Machine.ofText bounded text = .ok m ∧ Machine.ofValues bounded values = .ok m := by
  refine ⟨exists_parts text, fun line tokens hparts => ⟨fun hempty => ?_, fun hne => ?_⟩, ?_⟩
  · rw [hparts.parse_eq, if_pos hempty]
  · rw [hparts.parse_eq, if_neg hne]
    refine ⟨fun values => readTokens_eq_ok_iff, fun fault => ?_⟩
    have herror : readTokens 0 tokens = .error fault ↔ _ := readTokens_eq_error_iff
    simpa only [Nat.zero_add] using herror
  · rintro values blanks hne hfits hblanks rfl
    have hparsed := parse_write hne hfits hblanks
    refine ⟨hparsed, fun bounded => ⟨_, ?_, Machine.ofValues_eq_ok hne bounded⟩⟩
    rw [Machine.ofText, hparsed]
    exact Machine.ofValues_eq_ok hne bounded

/-- An empty token is refused where it stands, and a written program may have blanks after it. -/
theorem blank_token_refused_written_program_read :
    parse "1,,x" = .error (.badToken "" 1) ∧
      parse (write [7, -20] ++ String.ofList ['\r', ' ']) = .ok [7, -20] := by
  have hparts : Parts "1,,x" "1,,x".toList [['1'], [], ['x']] :=
    { endsAt := ⟨⟨[], by simp, nofun⟩, by decide⟩
      joined := by decide
      tokens_ne_nil := by decide
      not_comma := by decide }
  have hone : Reads ['1'] 1 :=
    ⟨['1'], .plain (by decide) (List.forall_mem_singleton.mpr (by decide)), by decide⟩
  have hnone : ∀ digits n, ¬ Numeral.Literal [] digits n := by
    intro digits n h
    cases h with
    | plain hne hdigits => exact hne rfl
  have hfits : ∀ n ∈ [(7 : Int), -20], Numeral.fits n := by
    intro n hn
    refine Numeral.fits_of_natAbs_lt (k := 2) ?_ (by decide)
    rcases List.mem_pair.mp hn with rfl | rfl <;> decide
  have hblanks : ∀ c ∈ ['\r', ' '], Text.isBlank c := by
    intro c hc
    rcases List.mem_pair.mp hc with rfl | rfl <;> decide
  have hrefused := (((parse_exact "1,,x").2.1 _ _ hparts).2 (by decide)).2
  refine ⟨(hrefused _).mpr ⟨[['1']], [], [['x']], rfl, ?_, .malformed hnone⟩, ?_⟩
  · exact List.forall_mem_singleton.mpr ⟨1, hone⟩
  · exact ((parse_exact _).2.2 [7, -20] ['\r', ' '] (by decide) hfits hblanks rfl).1

end Program

end Advent.Intcode
