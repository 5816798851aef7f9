/-
Positions on the integer grid.

`x` grows to the right and `y` grows upwards.  Distance is measured along the grid
lines.
-/
import Advent.Fault

namespace Advent.Grid

/-- A position. -/
structure Coord where
  x : Int
  y : Int
  deriving DecidableEq, Repr, Hashable, Inhabited

namespace Coord

/-- The position that paths start from unless another one is given. -/
def origin : Coord := ⟨0, 0⟩

instance : Add Coord := ⟨fun a b => ⟨a.x + b.x, a.y + b.y⟩⟩

instance : Sub Coord := ⟨fun a b => ⟨a.x - b.x, a.y - b.y⟩⟩

/-- The number of steps along grid lines from the origin. -/
def norm (a : Coord) : Nat := a.x.natAbs + a.y.natAbs

/-- The number of steps along grid lines from one position to another. -/
def distance (a b : Coord) : Nat := (a - b).norm

end Coord

end Advent.Grid
