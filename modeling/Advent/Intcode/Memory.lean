/-
Sparse memory.

A memory gives a value to every address; all but finitely many are zero.  It also has
an extent, one past the highest address that was loaded or written.  Writing only
ever raises the extent, also when the value written is zero, and two memories are
equal when they give the same values, whatever their extents.
-/
import Std.Data.TreeMap

namespace Advent.Intcode

/-- The cells that were loaded or written, and the extent. -/
structure Memory where
  cells : Std.TreeMap Int Int
  extent : Int

namespace Memory

/-- One past the highest address of some cells, and zero without any. -/
def extentOf (cells : Std.TreeMap Int Int) : Int :=
  match cells.maxKey? with
  | some address => address + 1
  | none => 0

/-- A memory with just these cells. -/
def ofMap (cells : Std.TreeMap Int Int) : Memory := ⟨cells, extentOf cells⟩

/-- A memory loaded with pairs of address and value; of two pairs with one address the
later one counts. -/
def ofCells (cells : List (Int × Int)) : Memory :=
  ofMap (cells.foldl (fun map (address, value) => map.insert address value) ∅)

/-- A memory loaded with values from address zero on. -/
def ofValues (values : List Int) : Memory :=
  ofCells (values.zipIdx.map fun (value, address) => (address, value))

/-- The memory without a cell. -/
def empty : Memory := ofMap ∅

instance : Inhabited Memory := ⟨empty⟩

/-- The value at an address. -/
def get (m : Memory) (address : Int) : Int := m.cells.getD address 0

/-- Write a value, raising the extent when the address lies at or past it. -/
def put (m : Memory) (address value : Int) : Memory :=
  ⟨m.cells.insert address value, if m.extent ≤ address then address + 1 else m.extent⟩

/-- A memory of its own with the same cells.  Its extent is that of the cells. -/
def copy (m : Memory) : Memory := ofMap m.cells

/-- The values at the addresses from zero up to the extent. -/
def snapshot (m : Memory) : List Int :=
  (List.range m.extent.toNat).map fun (i : Nat) => m.get i

/-- The cells with a value other than zero, in ascending order of address. -/
def nonzero (m : Memory) : List (Int × Int) :=
  m.cells.toList.filter fun (_, value) => value ≠ 0

/-- Memories are equal when the same addresses hold the same values other than zero. -/
instance : BEq Memory := ⟨fun a b => a.nonzero == b.nonzero⟩

end Memory

end Advent.Intcode
