/-
Lines of a text.

There are two ways to cut a text into lines.  A file is first brought to one line
ending, where a carriage return with or without a line feed counts as a line feed,
and then cut at line feeds alone.  A text that is laid out for display is cut at
every line end that Unicode knows.
-/
namespace Advent.Text

/-- The text with every line ending written as one line feed. -/
def unifyNewlines : List Char → List Char
  | '\r' :: '\n' :: rest => '\n' :: unifyNewlines rest
  | '\r' :: rest => '\n' :: unifyNewlines rest
  | c :: rest => c :: unifyNewlines rest
  | [] => []

/-- Characters that end a line on display. -/
def isLineEnd (c : Char) : Bool :=
  let n := c.toNat
  (0x0A ≤ n && n ≤ 0x0D) || (0x1C ≤ n && n ≤ 0x1E) || n == 0x85 || n == 0x2028 || n == 0x2029

/-- The lines on display, without their ends.  A carriage return and the line feed
after it end one line, and no empty line follows the last end. -/
def splitLines : List Char → List (List Char)
  | [] => []
  | '\r' :: '\n' :: rest => [] :: splitLines rest
  | c :: rest =>
    if isLineEnd c then [] :: splitLines rest
    else
      match splitLines rest with
      | [] => [[c]]
      | line :: lines => (c :: line) :: lines

end Advent.Text
