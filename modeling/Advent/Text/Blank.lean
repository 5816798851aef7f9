/-
Blank characters, and texts without the blanks around them.

A character is blank when Unicode counts it as white space; the four information
separators U+001C to U+001F are blank too.  Texts are handled as lists of
characters, so trimming is dropping from either end.
-/
namespace Advent.Text

/-- White space: the control characters that move the carriage, the information
separators, and the spaces and line separators of Unicode. -/
def isBlank (c : Char) : Bool :=
  let n := c.toNat
  (0x09 ≤ n && n ≤ 0x0D) || (0x1C ≤ n && n ≤ 0x20) || n == 0x85 || n == 0xA0 || n == 0x1680 ||
    (0x2000 ≤ n && n ≤ 0x200A) || n == 0x2028 || n == 0x2029 || n == 0x202F || n == 0x205F ||
    n == 0x3000

/-- The text without the blanks at its end. -/
def trimEnd (s : List Char) : List Char :=
  (s.reverse.dropWhile isBlank).reverse

/-- The text without the blanks at either end. -/
def trim (s : List Char) : List Char :=
  trimEnd (s.dropWhile isBlank)

end Advent.Text
