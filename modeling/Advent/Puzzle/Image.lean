/-
Layered images.

An image is sent as a stream of digits, layer after layer.  Its checksum comes from
the layer with the fewest zeros.  Its picture shows at every pixel the first layer
that is not transparent there; white pixels are marked, and black ones, pixels that
are transparent throughout, and pixels of any other colour are blank.
-/
import Advent.Fault

namespace Advent.Puzzle.Image

/-- The colour white. -/
def white : Nat := 1

/-- The colour through which the next layer shows. -/
def transparent : Nat := 2

/-- The digits of a line, which has at least one and nothing else. -/
def parseDigits (line : String) : Except Fault (List Nat) :=
  if !Numeral.isDigits line.toList then Fault.raise .notDigits
  else .ok (line.toList.map fun c => c.toNat - '0'.toNat)

/-- The first `count` blocks of `size` items. -/
def blocks (size : Nat) : Nat → List Nat → List (List Nat)
  | 0, _ => []
  | count + 1, items => items.take size :: blocks size count (items.drop size)

/-- The layers of a stream of digits, which has at least one and leaves no layer
unfinished. -/
def layers (size : Int) (digits : List Nat) : Except Fault (List (List Nat)) :=
  if size ≤ 0 ∨ digits = [] ∨ digits.length % size ≠ 0 then
    Fault.raise (.unevenLayers size digits.length)
  else .ok (blocks size.toNat (digits.length / size.toNat) digits)

/-- The first layer with the fewest zeros, among `best` and the layers after it. -/
def fewestZeros (best : List Nat) : List (List Nat) → List Nat
  | [] => best
  | layer :: rest => fewestZeros (if layer.count 0 < best.count 0 then layer else best) rest

/-- The number of ones times the number of twos in the layer with the fewest zeros. -/
def checksum (size : Int) (digits : List Nat) : Except Fault Nat := do
  match ← layers size digits with
  | [] => return 0
  | first :: rest =>
    let layer := fewestZeros first rest
    return layer.count 1 * layer.count 2

/-- What shows of two layers, one on top of the other. -/
def overlay (top bottom : List Nat) : List Nat :=
  top.zipWith (fun a b => if a = transparent then b else a) bottom

/-- The pixels that show, row by row. -/
def composite (width height : Int) (digits : List Nat) : Except Fault (List (List Nat)) := do
  let stack ← layers (width * height) digits
  let pixels := stack.foldl overlay (List.replicate (width * height).toNat transparent)
  return blocks width.toNat height.toNat pixels

/-- The mark of a pixel. -/
def mark (pixel : Nat) : Char := if pixel = white then '#' else ' '

/-- The picture, one line for each row. -/
def render (width height : Int) (digits : List Nat) : Except Fault String := do
  let rows ← composite width height digits
  return "\n".intercalate (rows.map fun row => String.ofList (row.map mark))

/-- The checksum and the picture of the image on the first line of a file. -/
def solveLines (width height : Int) : List String → Except Fault (Nat × String)
  | [] => Fault.raise .emptyImage
  | line :: _ => do
    let digits ← parseDigits line
    let sum ← checksum (width * height) digits
    let picture ← render width height digits
    return (sum, picture)

end Advent.Puzzle.Image
