/-
Quoted texts, as they stand in messages.

A text is written between single quotes, or between double quotes when it holds a
single quote and no double one.  Inside, the backslash and the quote in use are
escaped by a backslash, and every character that is not printable is written by its
number, so that a message is one line whatever the text held.
-/
import Advent.Text.Printable

namespace Advent.Text

/-- A number in lower-case hexadecimal, filled up with zeros to `width` places. -/
def hex (width n : Nat) : List Char :=
  let digits := Nat.toDigits 16 n
  List.replicate (width - digits.length) '0' ++ digits

/-- The quote that a text is written between. -/
def quoteFor (s : List Char) : Char :=
  if s.contains '\'' && !s.contains '"' then '"' else '\''

/-- One character of a text written between two `quote`s. -/
def escape (quote c : Char) : List Char :=
  if c = '\\' ∨ c = quote then ['\\', c]
  else if c = '\n' then ['\\', 'n']
  else if c = '\r' then ['\\', 'r']
  else if c = '\t' then ['\\', 't']
  else if isPrintable c then [c]
  else if c.toNat < 0x100 then '\\' :: 'x' :: hex 2 c.toNat
  else if c.toNat < 0x10000 then '\\' :: 'u' :: hex 4 c.toNat
  else '\\' :: 'U' :: hex 8 c.toNat

/-- The text between quotes. -/
def quoted (s : List Char) : List Char :=
  let quote := quoteFor s
  quote :: s.flatMap (escape quote) ++ [quote]

/-- The text between quotes, as a string. -/
def quote (s : String) : String :=
  String.ofList (quoted s.toList)

/-- Texts between quotes, separated by commas and enclosed in brackets. -/
def quoteAll (texts : List String) : String :=
  "[" ++ ", ".intercalate (texts.map quote) ++ "]"

end Advent.Text
