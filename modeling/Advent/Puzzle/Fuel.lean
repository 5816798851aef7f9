/-
Fuel for modules.

A module needs a third of its mass, less two, and never less than nothing.  Fuel has
mass of its own, so the whole load is the fuel for the module, the fuel for that
fuel, and so on until no more is needed.
-/
import Advent.Fault

namespace Advent.Puzzle.Fuel

/-- The fuel for a mass alone. -/
def required (mass : Int) : Int := max (mass / 3 - 2) 0

/-- The fuel for a mass is closer to zero than the mass. -/
theorem natAbs_required_lt {mass : Int} (h : mass ≠ 0) : (required mass).natAbs < mass.natAbs := by
  unfold required; omega

/-- The fuel for a mass and for all the fuel it takes. -/
def load (mass : Int) : Int :=
  if mass = 0 then 0 else required mass + load (required mass)
termination_by mass.natAbs
decreasing_by exact natAbs_required_lt ‹_›

/-- Read masses, the first bad one deciding. -/
def parseMasses : List String → Except Fault (List Int)
  | [] => .ok []
  | line :: rest =>
    match Numeral.read line with
    | .error defect => Fault.raise (.badMass defect)
    | .ok mass => do
      let masses ← parseMasses rest
      return mass :: masses

/-- The fuel for all modules alone, and the fuel with the fuel for fuel. -/
def solve (masses : List Int) : Int × Int :=
  ((masses.map required).foldr (· + ·) 0, (masses.map load).foldr (· + ·) 0)

end Advent.Puzzle.Fuel
