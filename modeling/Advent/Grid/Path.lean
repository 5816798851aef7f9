/-
Paths over the grid.

A path is a list of straight runs.  Walking it yields every position stepped on after
leaving the start, one for each unit of every run.  A run of negative length yields
no position but still moves the walker, backwards.

A path is written as its runs separated by commas, a run as the letter of its heading
and its length in ASCII digits.
-/
import Advent.Grid.Coord

namespace Advent.Grid

/-- The four headings. -/
inductive Heading where
  | up
  | right
  | down
  | left
  deriving DecidableEq, Repr

/-- The letter of a heading. -/
def Heading.letter : Heading → Char
  | .up => 'U'
  | .right => 'R'
  | .down => 'D'
  | .left => 'L'

/-- The name of a heading. -/
def Heading.name : Heading → String
  | .up => "Up"
  | .right => "Right"
  | .down => "Down"
  | .left => "Left"

/-- The heading of a letter. -/
def Heading.ofLetter? : Char → Option Heading
  | 'U' => some .up
  | 'R' => some .right
  | 'D' => some .down
  | 'L' => some .left
  | _ => none

/-- A straight run. -/
structure Run where
  heading : Heading
  length : Int
  deriving DecidableEq, Repr

/-- The same heading for another length. -/
def Run.resize (r : Run) (length : Int) : Run := { r with length }

/-- The position at the end of a run. -/
def Coord.offset (c : Coord) (r : Run) : Coord :=
  match r.heading with
  | .up => ⟨c.x, c.y + r.length⟩
  | .right => ⟨c.x + r.length, c.y⟩
  | .down => ⟨c.x, c.y - r.length⟩
  | .left => ⟨c.x - r.length, c.y⟩

/-- What may be given where a direction is wanted. -/
inductive Direction where
  | run (r : Run)
  /-- A text, which is no direction. -/
  | text (s : String)
  deriving DecidableEq, Repr

/-- The position that a direction leads to. -/
def Coord.follow (c : Coord) : Direction → Except Fault Coord
  | .run r => .ok (c.offset r)
  | .text s => Fault.raise (.notDirection s)

/-- A path. -/
abbrev Path := List Run

namespace Path

/-- The positions of one run, after its start. -/
def stepsOf (start : Coord) (r : Run) : List Coord :=
  (List.range r.length.toNat).map fun (i : Nat) => start.offset (r.resize (i + 1))

/-- The positions stepped on after leaving `start`. -/
def walkFrom (start : Coord) : Path → List Coord
  | [] => []
  | r :: rest => stepsOf start r ++ walkFrom (start.offset r) rest

/-- The positions stepped on after leaving the origin. -/
def walk (p : Path) : List Coord := p.walkFrom .origin

end Path

/-! ### Text form -/

namespace Run

/-- Read a run.  A short text is refused before its heading is looked at, and the
heading before the length. -/
def parse (text : List Char) : Except Fault Run :=
  match text with
  | letter :: digit :: digits =>
    match Heading.ofLetter? letter with
    | none => Fault.raise (.unknownHeading letter)
    | some heading =>
      let length := digit :: digits
      if !Numeral.isDigits length then
        Fault.raise (.badLength (String.ofList length) (String.ofList text))
      else
        match Numeral.ofDigits length with
        | .ok n => .ok ⟨heading, n⟩
        | .error defect => Fault.raise (.unreadable defect)
  | _ => Fault.raise (.shortRun text.length)

/-- A run in words. -/
def describe (r : Run) : String :=
  r.heading.name ++ "(length=" ++ Numeral.write r.length ++ ")"

end Run

namespace Path

/-- Read runs from left to right. -/
def parseRuns : List (List Char) → Except Fault Path
  | [] => .ok []
  | token :: rest => do
    let run ← Run.parse token
    let runs ← parseRuns rest
    return run :: runs

/-- Read a path, with or without blanks around it. -/
def parse (text : String) : Except Fault Path :=
  parseRuns ((Text.trim text.toList).splitOn ',')

/-- The text of a path. -/
def write (p : Path) : String :=
  ",".intercalate (p.map fun r => r.heading.letter.toString ++ Numeral.write r.length)

/-- A path in words, unless one of its lengths cannot be written. -/
def describe (p : Path) : Except Fault String :=
  if (p.map Run.length).all Numeral.fits then
    .ok ("Path(directions=[" ++ ", ".intercalate (p.map Run.describe) ++ "])")
  else .error .unwritable

end Path

/-- A coordinate in words, unless it cannot be written. -/
def Coord.describe (c : Coord) : Except Fault String :=
  if Numeral.fits c.x && Numeral.fits c.y then
    .ok ("Coord(x=" ++ Numeral.write c.x ++ ", y=" ++ Numeral.write c.y ++ ")")
  else .error .unwritable

end Advent.Grid
