/-
Tokens read one after another.

A reader of tokens goes from left to right and stops at the first one that it refuses.  So it
reads all of them or names the leftmost bad one, whatever a single token may look like.  How
many tokens came before may matter to what is said of a bad one, not to whether it is bad.
-/
import Mathlib.Data.List.Forall2
import Advent.Proofs.Text.Cut

namespace Advent.Text

variable {τ α ε : Type}

theorem cons_eq_ok_iff {r : Except ε α} {rs : Except ε (List α)} {values : List α} :
    (do
      let a ← r
      let others ← rs
      return a :: others) = .ok values ↔
      ∃ a others, r = .ok a ∧ rs = .ok others ∧ values = a :: others := by
  cases r with
  | error e => simp [bind, Except.bind]
  | ok a => cases rs <;> simp [bind, Except.bind, pure, Except.pure, eq_comm]

/-- The first token fails, or it is read and the others fail. -/
theorem cons_eq_error_iff {r : Except ε α} {rs : Except ε (List α)} {e : ε} :
    (do
      let a ← r
      let others ← rs
      return a :: others) = .error e ↔ r = .error e ∨ ∃ a, r = .ok a ∧ rs = .error e := by
  cases r with
  | error e => simp [bind, Except.bind]
  | ok a => cases rs <;> simp [bind, Except.bind, pure, Except.pure]

/-- `readAll` reads tokens from left to right by `read`, given how many came before. -/
structure ReadsInOrder (read : Nat → τ → Except ε α) (readAll : Nat → List τ → Except ε (List α)) :
    Prop where
  nil : ∀ n, readAll n [] = .ok []
  cons : ∀ n token rest, readAll n (token :: rest) = do
    let a ← read n token
    let others ← readAll (n + 1) rest
    return a :: others

namespace ReadsInOrder

variable {read : Nat → τ → Except ε α} {readAll : Nat → List τ → Except ε (List α)}
  {Good : τ → α → Prop} {tokens : List τ} {n : Nat}

theorem eq_ok_iff (h : ReadsInOrder read readAll)
    (hgood : ∀ n token a, read n token = .ok a ↔ Good token a) {values : List α} :
    readAll n tokens = .ok values ↔ List.Forall₂ Good tokens values := by
  induction tokens generalizing n values with
  | nil => rw [h.nil, Except.ok.injEq, eq_comm, List.forall₂_nil_left_iff]
  | cons token rest ih =>
      rw [h.cons, cons_eq_ok_iff, List.forall₂_cons_left_iff]
      simp only [hgood, ih]

/-- The leftmost token that is refused decides. -/
theorem eq_error_iff (h : ReadsInOrder read readAll)
    (hgood : ∀ n token a, read n token = .ok a ↔ Good token a) {e : ε} :
    readAll n tokens = .error e ↔
      ∃ before token after, tokens = before ++ token :: after ∧ (∀ t ∈ before, ∃ a, Good t a) ∧
        read (n + before.length) token = .error e := by
  induction tokens generalizing n with
  | nil => simp [h.nil]
  | cons token rest ih =>
      rw [h.cons, cons_eq_error_iff, ih]
      refine ⟨?_, ?_⟩
      · rintro (hrefused | ⟨a, hread, before, bad, after, rfl, hbefore, hrefused⟩)
        · exact ⟨[], token, rest, rfl, nofun, hrefused⟩
        · refine ⟨token :: before, bad, after, rfl, ?_, ?_⟩
          · exact List.forall_mem_cons.mpr ⟨⟨a, (hgood n token a).mp hread⟩, hbefore⟩
          · rwa [List.length_cons, Nat.add_comm before.length, ← Nat.add_assoc]
      · rintro ⟨before, bad, after, hsplit, hbefore, hrefused⟩
        cases before with
        | nil =>
            obtain ⟨rfl, rfl⟩ := List.cons.inj hsplit
            exact Or.inl hrefused
        | cons first before =>
            obtain ⟨rfl, rfl⟩ := List.cons.inj hsplit
            obtain ⟨⟨a, hread⟩, hbefore⟩ := List.forall_mem_cons.mp hbefore
            refine Or.inr ⟨a, (hgood n token a).mpr hread, before, bad, after, rfl, hbefore, ?_⟩
            rwa [List.length_cons, Nat.add_comm before.length, ← Nat.add_assoc] at hrefused

end ReadsInOrder

/-! ### Joined tokens -/

theorem not_blank_of_isDigit {c : Char} (h : c.isDigit) : ¬ isBlank c := by
  obtain ⟨hzero, hnine⟩ := Char.isDigit_iff_toNat.mp h
  change 48 ≤ c.toNat at hzero
  change c.toNat ≤ 57 at hnine
  simp [isBlank]
  omega

theorem not_blank_of_mem_joined {tokens : List (List Char)} {c : Char}
    (h : ∀ token ∈ tokens, ∀ c ∈ token, ¬ isBlank c) (hc : c ∈ [','].intercalate tokens) :
    ¬ isBlank c := by
  rcases mem_of_mem_intercalate hc with rfl | ⟨token, htoken, hc⟩
  · decide
  · exact h token htoken c hc

end Advent.Text
