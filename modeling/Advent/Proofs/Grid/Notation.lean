/-
Wire texts are read exactly.

The text of a path is tokens with commas in between and blanks around the whole, and a token is
the letter of a heading and digits.  `Spells` says what a token stands for and `Refused` what is
wrong with one that stands for nothing; every token is one or the other (`spells_or_refused`).  So
a text is that of a path when all its tokens are runs, and otherwise the leftmost one that is not
decides what is wrong.  A path that is written is read as itself.
-/
import Advent.Proofs.Numeral
import Advent.Proofs.Text.Lines
import Advent.Proofs.Text.Tokens
import Advent.Grid.Path

namespace Advent.Grid

/-! ### Letters -/

theorem Heading.ofLetter?_eq_some_iff {c : Char} {h : Heading} :
    ofLetter? c = some h ↔ c = h.letter := by
  refine ⟨fun hc => ?_, ?_⟩
  · unfold ofLetter? at hc
    split at hc <;> cases hc <;> rfl
  · rintro rfl
    cases h <;> rfl

@[simp]
theorem Heading.ofLetter?_letter (h : Heading) : ofLetter? h.letter = some h :=
  ofLetter?_eq_some_iff.mpr rfl

theorem Heading.letter_not_blank (h : Heading) : ¬ Text.isBlank h.letter := by
  cases h <;> decide

theorem Heading.letter_ne_comma (h : Heading) : h.letter ≠ ',' := by
  cases h <;> decide

namespace Run

/-! ### Tokens -/

/-- The token is the letter of a heading with digits after it, not too many, and the run is what
they say. -/
inductive Spells : List Char → Run → Prop where
  | run (heading : Heading) {digits : List Char} (hne : digits ≠ []) (hdigits : ∀ c ∈ digits, c.isDigit)
      (hlength : digits.length ≤ Numeral.maxDigits) :
      Spells (heading.letter :: digits) ⟨heading, Numeral.placeValue digits⟩

/-- The token would be a run if it had not too many digits. -/
def Overlong (token : List Char) : Prop :=
  ∃ heading digits, token = Heading.letter heading :: digits ∧ (∀ c ∈ digits, c.isDigit) ∧
    Numeral.maxDigits < digits.length

/-- What is wrong with a token.  Its length is looked at first, then its letter, then what follows
the letter. -/
inductive Refused : List Char → Fault → Prop where
  | short {token : List Char} (h : token.length < 2) : Refused token (.shortRun token.length)
  | heading {c : Char} {rest : List Char} (hrest : rest ≠ []) (h : ∀ heading, c ≠ Heading.letter heading) :
      Refused (c :: rest) (.unknownHeading c)
  | length (heading : Heading) {rest : List Char} (hrest : rest ≠ []) (h : ∃ c ∈ rest, ¬ c.isDigit) :
      Refused (heading.letter :: rest)
        (.badLength (String.ofList rest) (String.ofList (heading.letter :: rest)))
  | oversize (heading : Heading) {digits : List Char} (hdigits : ∀ c ∈ digits, c.isDigit)
      (h : Numeral.maxDigits < digits.length) :
      Refused (heading.letter :: digits) (.unreadable (.oversize digits.length))

variable {token : List Char}

/-- **A token spells a run, or there is something wrong with it.** -/
theorem spells_or_refused (token : List Char) :
    (∃ r, Spells token r) ∨ ∃ fault, Refused token fault := by
  rcases token with _ | ⟨c, _ | ⟨d, rest⟩⟩
  · exact Or.inr ⟨_, .short (by decide)⟩
  · exact Or.inr ⟨_, .short (by simp)⟩
  · have hrest : d :: rest ≠ [] := List.cons_ne_nil d rest
    by_cases hletter : ∃ heading, c = Heading.letter heading
    · obtain ⟨heading, rfl⟩ := hletter
      by_cases hdigits : ∀ x ∈ d :: rest, x.isDigit
      · by_cases hlength : (d :: rest).length ≤ Numeral.maxDigits
        · exact Or.inl ⟨_, .run heading hrest hdigits hlength⟩
        · exact Or.inr ⟨_, .oversize heading hdigits (Nat.lt_of_not_le hlength)⟩
      · obtain ⟨x, hx, hdigit⟩ := not_forall₂.mp hdigits
        exact Or.inr ⟨_, .length heading hrest ⟨x, hx, hdigit⟩⟩
    · exact Or.inr ⟨_, .heading hrest fun heading h => hletter ⟨heading, h⟩⟩

/-- A token that spells a run is read as that run. -/
theorem parse_of_spells {r : Run} (h : Spells token r) : parse token = .ok r := by
  cases h with
  | run heading hne hdigits hlength =>
      obtain ⟨d, rest, rfl⟩ := List.exists_cons_of_ne_nil hne
      have hall := (Numeral.isDigits_iff _).mpr ⟨hne, hdigits⟩
      have hvalue := Numeral.ofDigits_eq_ok_iff.mpr ⟨hlength, rfl⟩
      simp [parse, hall, hvalue]

theorem parse_of_refused {fault : Fault} (h : Refused token fault) : parse token = .error fault := by
  cases h with
  | short h =>
      rcases token with _ | ⟨c, _ | ⟨d, rest⟩⟩
      · rfl
      · rfl
      · simp only [List.length_cons] at h
        omega
  | @heading c rest hrest h =>
      obtain ⟨d, rest, rfl⟩ := List.exists_cons_of_ne_nil hrest
      have hletter : Heading.ofLetter? c = none :=
        Option.eq_none_iff_forall_ne_some.mpr fun heading hc =>
          h heading (Heading.ofLetter?_eq_some_iff.mp hc)
      simp [parse, hletter, Fault.raise, Fault.reported, Fault.integers]
  | length heading hrest h =>
      obtain ⟨d, rest, rfl⟩ := List.exists_cons_of_ne_nil hrest
      obtain ⟨c, hc, hdigit⟩ := h
      have hall : Numeral.isDigits (d :: rest) = false :=
        Bool.eq_false_iff.mpr fun hall => hdigit (((Numeral.isDigits_iff _).mp hall).2 c hc)
      simp [parse, hall, Fault.raise, Fault.reported, Fault.integers]
  | oversize heading hdigits h =>
      have hne := List.length_pos_iff.mp (Nat.zero_lt_of_lt h)
      obtain ⟨d, rest, rfl⟩ := List.exists_cons_of_ne_nil hne
      have hall := (Numeral.isDigits_iff _).mpr ⟨hne, hdigits⟩
      have hvalue := Numeral.ofDigits_eq_error_iff.mpr ⟨h, rfl⟩
      simp [parse, hall, hvalue, Fault.raise, Fault.reported, Fault.integers]

theorem parse_eq_ok_iff {r : Run} : parse token = .ok r ↔ Spells token r := by
  refine ⟨fun h => ?_, parse_of_spells⟩
  rcases spells_or_refused token with ⟨r', hspells⟩ | ⟨fault, hrefused⟩
  · rw [parse_of_spells hspells, Except.ok.injEq] at h
    exact h ▸ hspells
  · rw [parse_of_refused hrefused] at h
    cases h

theorem parse_eq_error_iff {fault : Fault} : parse token = .error fault ↔ Refused token fault := by
  refine ⟨fun h => ?_, parse_of_refused⟩
  rcases spells_or_refused token with ⟨r, hspells⟩ | ⟨fault', hrefused⟩
  · rw [parse_of_spells hspells] at h
    cases h
  · rw [parse_of_refused hrefused, Except.error.injEq] at h
    exact h ▸ hrefused

/-- Only too many digits make a fault of another kind. -/
theorem Refused.kind_eq {fault : Fault} (h : Refused token fault) :
    (Overlong token → fault.kind = .value) ∧ (¬ Overlong token → fault.kind = .puzzleInput) := by
  cases h with
  | short h =>
      refine ⟨?_, fun _ => rfl⟩
      rintro ⟨heading, digits, rfl, -, hlength⟩
      rw [List.length_cons] at h
      exact absurd hlength (by omega)
  | heading hrest h =>
      refine ⟨?_, fun _ => rfl⟩
      rintro ⟨heading, digits, hsplit, -, -⟩
      exact absurd (List.cons.inj hsplit).1 (h heading)
  | length heading hrest h =>
      refine ⟨?_, fun _ => rfl⟩
      rintro ⟨heading', digits, hsplit, hdigits, -⟩
      obtain ⟨c, hc, hdigit⟩ := h
      exact absurd (hdigits c ((List.cons.inj hsplit).2 ▸ hc)) hdigit
  | oversize heading hdigits h =>
      exact ⟨fun _ => rfl, fun hshort => absurd ⟨heading, _, rfl, hdigits, h⟩ hshort⟩

/-! ### Written runs

What is written of a run is a token that spells it, with no comma and no blank in it.  So runs can
be joined by commas and the text be put between blanks without anything being lost.
-/

/-- A run that is written spells itself. -/
theorem spells_write {r : Run} (hr : 0 ≤ r.length) (hfits : Numeral.fits r.length) :
    Spells (r.heading.letter :: (Numeral.write r.length).toList) r := by
  obtain ⟨heading, n⟩ := r
  have hdigits : ∀ c ∈ Nat.toDigits 10 n.natAbs, c.isDigit :=
    fun c hc => Nat.isDigit_of_mem_toDigits (by decide) (by decide) hc
  have hspells := Spells.run heading Nat.toDigits_ne_nil hdigits
    ((Numeral.fits_iff_length_toDigits n).mp hfits)
  rw [Numeral.placeValue_toDigits, Int.natAbs_of_nonneg hr] at hspells
  rwa [Numeral.toList_write_of_nonneg hr]

theorem Spells.not_blank {r : Run} (h : Spells token r) {c : Char} (hc : c ∈ token) :
    ¬ Text.isBlank c := by
  cases h with
  | run heading _ hdigits _ =>
      rcases List.mem_cons.mp hc with rfl | hc
      · exact heading.letter_not_blank
      · exact Text.not_blank_of_isDigit (hdigits c hc)

theorem Spells.not_comma {r : Run} (h : Spells token r) : ',' ∉ token := by
  cases h with
  | run heading _ hdigits _ =>
      intro hc
      rcases List.mem_cons.mp hc with hletter | hdigit
      · exact heading.letter_ne_comma hletter.symm
      · exact absurd (hdigits ',' hdigit) (by decide)

end Run

namespace Path

/-! ### Texts -/

/-- The tokens of a text: joined by commas and between blanks they are the text, and none has a
comma. -/
structure Tokens (text : String) (tokens : List (List Char)) : Prop where
  trimmed : Text.Trimmed text.toList ([','].intercalate tokens)
  ne_nil : tokens ≠ []
  not_comma : ∀ token ∈ tokens, ',' ∉ token

variable {text : String} {tokens : List (List Char)}

theorem exists_tokens (text : String) : ∃ tokens, Tokens text tokens := by
  refine ⟨(Text.trim text.toList).splitOn ',', ?_, List.splitOn_ne_nil ',' _, ?_⟩
  · rw [List.intercalate_splitOn]
    exact Text.trim_trimmed text.toList
  · exact fun _ => Text.not_mem_of_mem_splitOn

/-- Reading a text is reading its tokens. -/
theorem Tokens.parse_eq (h : Tokens text tokens) : parse text = parseRuns tokens := by
  rw [parse, h.trimmed.trim_eq, List.splitOn_intercalate ',' h.not_comma h.ne_nil]

theorem parseRuns_in_order : Text.ReadsInOrder (fun _ => Run.parse) fun _ => parseRuns :=
  ⟨fun _ => rfl, fun _ _ _ => rfl⟩

theorem parseRuns_eq_ok_iff {p : Path} : parseRuns tokens = .ok p ↔ List.Forall₂ Run.Spells tokens p :=
  parseRuns_in_order.eq_ok_iff (n := 0) fun _ _ _ => Run.parse_eq_ok_iff

theorem parseRuns_eq_error_iff {fault : Fault} :
    parseRuns tokens = .error fault ↔
      ∃ before token after, tokens = before ++ token :: after ∧ (∀ t ∈ before, ∃ r, Run.Spells t r) ∧
        Run.Refused token fault := by
  rw [parseRuns_in_order.eq_error_iff (n := 0) fun _ _ _ => Run.parse_eq_ok_iff]
  simp only [Run.parse_eq_error_iff]

/-- The tokens of a path that is written. -/
def tokensOf (p : Path) : List (List Char) :=
  p.map fun r => r.heading.letter :: (Numeral.write r.length).toList

theorem toList_write (p : Path) : (write p).toList = [','].intercalate (tokensOf p) := by
  simp [write, tokensOf, String.toList_intercalate, Function.comp_def]

theorem forall₂_tokensOf {p : Path} (h : ∀ r ∈ p, 0 ≤ r.length ∧ Numeral.fits r.length) :
    List.Forall₂ Run.Spells (tokensOf p) p := by
  rw [tokensOf, List.forall₂_map_left_iff, List.forall₂_same]
  exact fun r hr => Run.spells_write (h r hr).1 (h r hr).2

/-- The tokens of a written path are those of its runs, with or without blanks around it. -/
theorem tokens_write {p : Path} {before after : List Char} (hne : p ≠ [])
    (hp : ∀ r ∈ p, 0 ≤ r.length ∧ Numeral.fits r.length) (hbefore : ∀ c ∈ before, Text.isBlank c)
    (hafter : ∀ c ∈ after, Text.isBlank c) :
    Tokens (String.ofList before ++ write p ++ String.ofList after) (tokensOf p) := by
  have hspells : ∀ token ∈ tokensOf p, ∃ r, Run.Spells token r := by
    intro token htoken
    obtain ⟨r, hr, rfl⟩ := List.mem_map.mp htoken
    exact ⟨r, Run.spells_write (hp r hr).1 (hp r hr).2⟩
  have hblank : ∀ c ∈ [','].intercalate (tokensOf p), ¬ Text.isBlank c := by
    refine fun c => Text.not_blank_of_mem_joined fun token htoken c hc => ?_
    obtain ⟨r, hr⟩ := hspells token htoken
    exact hr.not_blank hc
  refine ⟨⟨⟨before, after, ?_, hbefore, hafter⟩, ?_, ?_⟩, ?_, fun token htoken => ?_⟩
  · rw [String.toList_append, String.toList_append, String.toList_ofList, String.toList_ofList,
      toList_write]
  · exact fun hne => hblank _ (List.head_mem hne)
  · exact fun hne => hblank _ (List.getLast_mem hne)
  · simpa [tokensOf] using hne
  · obtain ⟨r, hr⟩ := hspells token htoken
    exact hr.not_comma

/--
**A wire text is read exactly.**  Every text has tokens.  It is read as a path when each of them is
the letter of a heading with one to 4300 digits after it, one run for each token and in the order of
the tokens; otherwise the leftmost one that is not decides what is wrong.  That is a bad value if the
token has too many digits and a bad puzzle input in every other case.  In particular the text of a
path that has runs, none of negative or unwritable length, is read as that path, whatever blanks
stand around it.
-/
theorem runs_are_read_exactly (text : String) :
    (∃ tokens, Tokens text tokens) ∧
    (∀ tokens, Tokens text tokens →
      (∀ p, parse text = .ok p ↔ List.Forall₂ Run.Spells tokens p) ∧
      ∀ fault, parse text = .error fault ↔
        ∃ before token after, tokens = before ++ token :: after ∧
          (∀ t ∈ before, ∃ r, Run.Spells t r) ∧ Run.Refused token fault) ∧
    (∀ token fault, Run.Refused token fault →
      (Run.Overlong token → fault.kind = .value) ∧
      (¬ Run.Overlong token → fault.kind = .puzzleInput)) ∧
    ∀ (p : Path) (before after : List Char), p ≠ [] →
      (∀ r ∈ p, 0 ≤ r.length ∧ Numeral.fits r.length) → (∀ c ∈ before, Text.isBlank c) →
      (∀ c ∈ after, Text.isBlank c) → text = String.ofList before ++ write p ++ String.ofList after →
      parse text = .ok p := by
  refine ⟨exists_tokens text, fun tokens htokens => ?_, fun _ _ h => h.kind_eq, ?_⟩
  · rw [htokens.parse_eq]
    exact ⟨fun p => parseRuns_eq_ok_iff, fun fault => parseRuns_eq_error_iff⟩
  · rintro p before after hne hp hbefore hafter rfl
    rw [(tokens_write hne hp hbefore hafter).parse_eq]
    exact parseRuns_eq_ok_iff.mpr (forall₂_tokensOf hp)

/-- A text with two bad tokens, and a path that is written with blanks around it. -/
theorem short_token_refused_written_path_read :
    let text := "\tU2,L,X5"
    let p : Path := [⟨.right, 75⟩, ⟨.down, 0⟩]
    (Tokens text [['U', '2'], ['L'], ['X', '5']] ∧ parse text = .error (.shortRun 1) ∧
      ¬ Run.Overlong ['L'] ∧ (Fault.shortRun 1).kind = .puzzleInput) ∧
    parse (String.ofList ['\u2003'] ++ write p ++ String.ofList ['\r', ' ']) = .ok p := by
  intro text p
  have htokens : Tokens text [['U', '2'], ['L'], ['X', '5']] :=
    { trimmed := ⟨⟨['\t'], [], by decide, List.forall_mem_singleton.mpr (by decide), nofun⟩,
        by decide, by decide⟩
      ne_nil := by decide
      not_comma := by decide }
  have hfirst : Run.Spells ['U', '2'] ⟨.up, 2⟩ :=
    .run .up (by decide) (List.forall_mem_singleton.mpr (by decide)) (by decide)
  have hrefused : Run.Refused ['L'] (.shortRun 1) := .short (by decide)
  have hshort : ¬ Run.Overlong ['L'] := by
    rintro ⟨heading, digits, hsplit, -, hlength⟩
    rw [← (List.cons.inj hsplit).2] at hlength
    exact absurd hlength (by decide)
  have hp : ∀ r ∈ p, 0 ≤ r.length ∧ Numeral.fits r.length := by
    refine fun r hr => ⟨?_, Numeral.fits_of_natAbs_lt (k := 2) ?_ (by decide)⟩
    · exact (by decide : ∀ r ∈ p, 0 ≤ r.length) r hr
    · exact (by decide : ∀ r ∈ p, r.length.natAbs < 10 ^ 2) r hr
  have hbefore : ∀ c ∈ ['\u2003'], Text.isBlank c := List.forall_mem_singleton.mpr (by decide)
  have hafter : ∀ c ∈ ['\r', ' '], Text.isBlank c := by
    intro c hc
    rcases List.mem_pair.mp hc with rfl | rfl <;> decide
  obtain ⟨-, hreads, hkind, -⟩ := runs_are_read_exactly text
  refine ⟨⟨htokens, ((hreads _ htokens).2 _).mpr ⟨[['U', '2']], ['L'], [['X', '5']], rfl, ?_, hrefused⟩,
    hshort, (hkind _ _ hrefused).2 hshort⟩, ?_⟩
  · exact List.forall_mem_singleton.mpr ⟨_, hfirst⟩
  · exact (runs_are_read_exactly _).2.2.2 p ['\u2003'] ['\r', ' '] (by decide) hp hbefore hafter rfl

end Path

end Advent.Grid
