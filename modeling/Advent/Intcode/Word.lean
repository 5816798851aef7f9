/-
Instruction words.

A word is a natural number: its last two decimal digits are the operation code, and
the digits above them are the modes of the parameters, the first parameter's digit
lowest.  Digits that are not written are zeros, so every word has a mode digit for
every parameter.
-/
import Advent.Fault

namespace Advent.Intcode

/-- How a parameter refers to its value. -/
inductive Mode where
  /-- The operand is an address. -/
  | position
  /-- The operand is the value. -/
  | immediate
  /-- The operand is an offset from the relative base. -/
  | relative
  deriving DecidableEq, Repr, Inhabited

/-- The mode digit of a mode. -/
def Mode.digit : Mode → Nat
  | .position => 0
  | .immediate => 1
  | .relative => 2

/-- The mode of a mode digit. -/
def Mode.ofDigit? : Nat → Option Mode
  | 0 => some .position
  | 1 => some .immediate
  | 2 => some .relative
  | _ => none

/-- An instruction word. -/
structure Word where
  raw : Nat
  deriving DecidableEq, Repr

namespace Word

/-- The word that a memory value is, unless it is negative. -/
def ofInt (value : Int) : Except Fault Word :=
  if value < 0 then Fault.raise (.negativeWord value) else .ok ⟨value.toNat⟩

/-- The operation code. -/
def code (w : Word) : Nat := w.raw % 100

/-- The decimal digit two places above place `i`.  Parameters are counted from zero;
the places -2 and -1 are those of the code. -/
def modeDigit (w : Word) (i : Int) : Nat := w.raw / Nat.pow 10 (i + 2).toNat % 10

/-- The mode of parameter `i`. -/
def mode (w : Word) (i : Int) : Except Fault Mode :=
  match Mode.ofDigit? (w.modeDigit i) with
  | some m => .ok m
  | none => Fault.raise (.unknownMode (w.modeDigit i) i w.raw)

/-- The modes of parameters `i`, `i + 1`, …, `count` of them or up to the first
digit that is no mode. -/
def modesFrom (w : Word) (i : Nat) : Nat → List (Except Fault Mode)
  | 0 => []
  | count + 1 =>
    match w.mode i with
    | .ok m => .ok m :: w.modesFrom (i + 1) count
    | .error fault => [.error fault]

/-- The word with a code and the modes of its first parameters. -/
def encode (code : Nat) (modes : List Mode) : Word :=
  ⟨code + 100 * modes.foldr (fun m sum => m.digit + 10 * sum) 0⟩

end Word

end Advent.Intcode
