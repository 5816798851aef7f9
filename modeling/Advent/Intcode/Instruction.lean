/-
The instruction set.

Ten operation codes name the operations.  An operation says how each of its
parameters is used, and, once they are resolved to values and addresses, what its one
effect on the machine is.  Reading parameters and carrying out the effect are the
machine's part.
-/
import Advent.Intcode.Word

namespace Advent.Intcode

/-- The use of a parameter. -/
inductive Role where
  /-- A value to read. -/
  | input
  /-- An address to write to. -/
  | output
  /-- A letter that stands for no use. -/
  | unknown (letter : Char)
  deriving DecidableEq, Repr

/-- The role that a letter stands for. -/
def Role.ofChar : Char → Role
  | 'i' => .input
  | 'o' => .output
  | c => .unknown c

/-- Operations that write one number computed from two. -/
inductive Arithmetic where
  | add
  | mul
  | lessThan
  | equals
  deriving DecidableEq, Repr

/-- The number computed. -/
def Arithmetic.apply : Arithmetic → Int → Int → Int
  | .add, a, b => a + b
  | .mul, a, b => a * b
  | .lessThan, a, b => if a < b then 1 else 0
  | .equals, a, b => if a = b then 1 else 0

/-- Operations. -/
inductive Operation where
  | compute (f : Arithmetic)
  | input
  | output
  /-- Jump when the first parameter is nonzero, or, without `onNonzero`, when it is zero. -/
  | jump (onNonzero : Bool)
  | adjustBase
  | halt
  deriving DecidableEq, Repr

/-- What an operation does once its parameters are resolved. -/
inductive Effect where
  /-- Write a value. -/
  | store (address value : Int)
  /-- Pause for a value that is to be written at an address. -/
  | await (destination : Int)
  /-- Pause with a value put out. -/
  | emit (value : Int)
  /-- Nothing. -/
  | pass
  /-- Go on at an address. -/
  | jump (target : Int)
  /-- Move the relative base. -/
  | shift (offset : Int)
  /-- Stop for good. -/
  | halt
  deriving DecidableEq, Repr

namespace Operation

/-- The code of an operation. -/
def code : Operation → Nat
  | compute .add => 1
  | compute .mul => 2
  | input => 3
  | output => 4
  | jump true => 5
  | jump false => 6
  | compute .lessThan => 7
  | compute .equals => 8
  | adjustBase => 9
  | halt => 99

/-- The operation of a code. -/
def ofCode? : Nat → Option Operation
  | 1 => some (compute .add)
  | 2 => some (compute .mul)
  | 3 => some input
  | 4 => some output
  | 5 => some (jump true)
  | 6 => some (jump false)
  | 7 => some (compute .lessThan)
  | 8 => some (compute .equals)
  | 9 => some adjustBase
  | 99 => some halt
  | _ => none

/-- The uses of the parameters, in order. -/
def roles : Operation → List Role
  | compute _ => [.input, .input, .output]
  | input => [.output]
  | output => [.input]
  | jump _ => [.input, .input]
  | adjustBase => [.input]
  | halt => []

/-- The effect, where `param i` is the value or address that parameter `i` came to. -/
def effect (param : Nat → Int) : Operation → Effect
  | compute f => .store (param 2) (f.apply (param 0) (param 1))
  | input => .await (param 0)
  | output => .emit (param 0)
  | jump onNonzero => if (param 0 != 0) = onNonzero then .jump (param 1) else .pass
  | adjustBase => .shift (param 0)
  | halt => .halt

end Operation

end Advent.Intcode
