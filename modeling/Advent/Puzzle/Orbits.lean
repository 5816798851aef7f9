/-
Orbit maps.

Every object orbits at most one other.  Following orbits from an object gives its
chain, which ends at an object that orbits nothing, or runs into a circle.  A chain
cannot be longer than the map without repeating itself, so one that is cut off one
past the size of the map tells whether it ends.
-/
import Advent.Fault
import Std.Data.TreeMap

namespace Advent.Puzzle.Orbits

/-- What every satellite orbits. -/
structure OrbitMap where
  massOf : Std.TreeMap String String

/-- The two sides of a line with one separator, mass and satellite. -/
def parseLine (line : String) : Except Fault (String × String) :=
  match line.toList.splitOn ')' with
  | [mass, satellite] => .ok (String.ofList mass, String.ofList satellite)
  | [] | [_] => Fault.raise (.noSeparator line)
  | _ => Fault.raise (.extraSeparator line)

namespace OrbitMap

/-- The map without an object. -/
def empty : OrbitMap := ⟨∅⟩

/-- Add an orbit; a satellite that was there orbits the new mass only. -/
def insert (o : OrbitMap) (mass satellite : String) : OrbitMap :=
  ⟨o.massOf.insert satellite mass⟩

/-- Add the orbits of lines, the first bad one deciding. -/
def insertLines (o : OrbitMap) : List String → Except Fault OrbitMap
  | [] => .ok o
  | line :: rest => do
    let (mass, satellite) ← parseLine line
    (o.insert mass satellite).insertLines rest

/-- The map of some lines. -/
def parse (lines : List String) : Except Fault OrbitMap := empty.insertLines lines

/-- The number of satellites. -/
def size (o : OrbitMap) : Nat := o.massOf.size

/-- The satellites, in ascending order. -/
def satellites (o : OrbitMap) : List String := o.massOf.keys

/-- The first `limit` names of the chain of an object: what it orbits, what that
orbits, and so on. -/
def chain (o : OrbitMap) : Nat → String → List String
  | 0, _ => []
  | limit + 1, name =>
    match o.massOf[name]? with
    | none => []
    | some mass => mass :: o.chain limit mass

/-- The whole chain of an object, if it ends. -/
def ancestors? (o : OrbitMap) (name : String) : Option (List String) :=
  let names := o.chain (o.size + 1) name
  if names.length ≤ o.size then some names else none

/-- The number of direct and indirect orbits, if all chains end. -/
def total? (o : OrbitMap) : Option Nat := do
  let chains ← o.satellites.mapM o.ancestors?
  return (chains.map List.length).foldr (· + ·) 0

/-- The number of steps from what `a` orbits to what `b` orbits, through the first
object of `b`'s chain that lies on `a`'s, if both chains end. -/
def transfers? (o : OrbitMap) (a b : String) : Option (Except Fault Nat) := do
  let above ← o.ancestors? a
  let beside ← o.ancestors? b
  return match beside.zipIdx.findSome? fun (name, j) => (above.idxOf? name).map (· + j) with
    | some n => .ok n
    | none => Fault.raise (.unconnected a b)

/-- The number of orbits, and the number of transfers between two objects, if all the
chains that are followed end. -/
def solve? (o : OrbitMap) (a b : String) : Option (Except Fault (Nat × Nat)) := do
  let total ← o.total?
  let transfers ← o.transfers? a b
  return transfers.map fun n => (total, n)

end OrbitMap

end Advent.Puzzle.Orbits
