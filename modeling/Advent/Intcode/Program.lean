/-
Program text.

A program is written on one line as integers separated by commas, each an optional
sign and one or more ASCII digits.  Blanks may follow the last integer and stand
nowhere else.  The leftmost bad token decides what is wrong with a text.
-/
import Advent.Intcode.Machine

namespace Advent.Intcode

namespace Program

/-- Read one token, the `position`-th of its text. -/
def readToken (position : Nat) (token : List Char) : Except Fault Int :=
  let (negative, digits) := Numeral.takeSign token
  if !Numeral.isDigits digits then Fault.raise (.badToken (String.ofList token) position)
  else
    match Numeral.ofDigits digits with
    | .ok n => .ok (Numeral.signed negative n)
    | .error defect => Fault.raise (.unreadable defect)

/-- Read tokens from left to right, the first of them the `position`-th. -/
def readTokens (position : Nat) : List (List Char) → Except Fault (List Int)
  | [] => .ok []
  | token :: rest => do
    let value ← readToken position token
    let values ← readTokens (position + 1) rest
    return value :: values

/-- Read a program text. -/
def parse (text : String) : Except Fault (List Int) :=
  let line := Text.trimEnd text.toList
  if line.isEmpty then Fault.raise .emptyProgram else readTokens 0 (line.splitOn ',')

/-- The text of a program. -/
def write (values : List Int) : String :=
  ",".intercalate (values.map Numeral.write)

end Program

namespace Machine

/-- A machine loaded with values, of which there is at least one. -/
def ofValues (bounded : Bool) (values : List Int) : Except Fault Machine :=
  let memory := Memory.ofValues values
  if memory.extent = 0 then Fault.raise .emptyProgram else .ok { memory, bounded }

/-- A machine loaded with a program text. -/
def ofText (bounded : Bool) (text : String) : Except Fault Machine := do
  ofValues bounded (← Program.parse text)

end Machine

end Advent.Intcode
