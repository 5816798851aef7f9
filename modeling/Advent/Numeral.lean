/-
Integers and their decimal numerals.

A numeral has at most `maxDigits` digits.  The bound holds in both directions: a
longer run of digits is not read, and an integer whose numeral would be longer is not
written.

A literal is read in the liberal form: blanks around it, one sign, digits of any
script, and single underscores between digits.  Digits are counted before anything
after them is looked at, so a run that is too long is reported as such even when the
text goes on with something else.
-/
import Advent.Text.DecimalDigit
import Advent.Text.Blank
import Advent.Text.Quoted

namespace Advent.Numeral

/-- The most digits that a numeral may have. -/
def maxDigits : Nat := 4300

/-- The least magnitude whose numeral would be too long. -/
def bound : Nat := Nat.pow 10 maxDigits

/-- Whether an integer can be written. -/
def fits (n : Int) : Bool := n.natAbs < bound

/-- The numeral of an integer. -/
def write (n : Int) : String := toString n

/-- Why a text is not read as an integer. -/
inductive Defect where
  /-- The text is no literal. -/
  | malformed (text : String)
  /-- The literal has this many digits, which is more than `maxDigits`. -/
  | oversize (digits : Nat)
  deriving DecidableEq, Repr

/-- The most characters of a quoted text that a message repeats. -/
def quotedLimit : Nat := 200

/-- The defect in words. -/
def Defect.message : Defect → String
  | .malformed text =>
    "invalid literal for int() with base 10: " ++
      String.ofList ((Text.quoted text.toList).take quotedLimit)
  | .oversize digits =>
    "Exceeds the limit (" ++ toString maxDigits ++ " digits) for integer string conversion: value has " ++
      toString digits ++ " digits; use sys.set_int_max_str_digits() to increase the limit"

/-! ### Runs of digits -/

/-- The number that a run of ASCII digits denotes. -/
def ofDigits (digits : List Char) : Except Defect Nat :=
  if maxDigits < digits.length then .error (.oversize digits.length)
  else .ok (Nat.ofDigitChars 10 digits 0)

/-- Whether a text is one or more ASCII digits. -/
def isDigits (s : List Char) : Bool := !s.isEmpty && s.all Char.isDigit

/-- An optional sign taken off the front: whether it was a minus, and the rest. -/
def takeSign : List Char → Bool × List Char
  | '-' :: rest => (true, rest)
  | '+' :: rest => (false, rest)
  | rest => (false, rest)

/-- A magnitude with its sign. -/
def signed (negative : Bool) (n : Nat) : Int := if negative then -n else n

/-! ### Literals -/

/-- A character of a literal in its ASCII form: a decimal digit of any script is the
digit of the same value, and a blank outside ASCII is a space. -/
def toAscii (c : Char) : Char :=
  if c.toNat < 0x7F then c
  else if Text.isBlank c then ' '
  else
    match Text.decimalValue? c with
    | some d => Nat.digitChar d
    | none => c

/-- The blanks that may surround a literal in its ASCII form. -/
def isMargin (c : Char) : Bool :=
  (0x09 ≤ c.toNat && c.toNat ≤ 0x0D) || c == ' '

/-- Whether a character belongs to the digits of a literal. -/
def isBody (c : Char) : Bool := c.isDigit || c == '_'

/-- Read a literal. -/
def read (text : String) : Except Defect Int :=
  let (negative, rest) := takeSign ((text.toList.map toAscii).dropWhile isMargin)
  let groups := (rest.takeWhile isBody).splitOn '_'
  let tail := rest.dropWhile isBody
  if groups.any List.isEmpty then .error (.malformed text)
  else
    match ofDigits groups.flatten with
    | .error defect => .error defect
    | .ok n => if tail.all isMargin then .ok (signed negative n) else .error (.malformed text)

end Advent.Numeral
