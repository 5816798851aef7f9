/-
The machine and one instruction of it.

An instruction is carried out in three stages that do not overlap.  Its word is
fetched; its parameters are read one after another against the memory as it was, up
to the first that fails; and then its single effect is applied.  A failure therefore
never leaves half an instruction behind: only the program counter has moved, by one
for the word and by one for each parameter that was read.

A machine may be stepped until it stops, and is then driven no further by `step`.
-/
import Advent.Intcode.Instruction
import Advent.Intcode.Memory

namespace Advent.Intcode

/-- Why a machine stopped. -/
inductive Stop where
  /-- It wants a value for an address. -/
  | input (destination : Int)
  /-- It has put out a value. -/
  | output (value : Int)
  /-- It has halted. -/
  | halt
  deriving DecidableEq, Repr, Inhabited

/-- A memory with a program counter and a relative base.  A `bounded` machine takes no
jump to an address at or past the extent; one that has `started` was run, or has
stopped on a step. -/
structure Machine where
  memory : Memory
  bounded : Bool := false
  pc : Int := 0
  relativeBase : Int := 0
  started : Bool := false
  deriving Inhabited

/-- An address, unless it is negative. -/
def address (value : Int) : Except Fault Int :=
  if value < 0 then Fault.raise (.negativeAddress value) else .ok value

/-- What came of reading parameters: those that were read, in order, and the fault of
the one after them if it failed. -/
structure Reading where
  values : List Int
  fault? : Option Fault
  deriving DecidableEq, Repr

/-- The outcome of a reading: all values, or the fault. -/
def Reading.result (r : Reading) : Except Fault (List Int) :=
  match r.fault? with
  | some fault => .error fault
  | none => .ok r.values

namespace Machine

/-- Move the program counter on. -/
def advance (m : Machine) (count : Int) : Machine := { m with pc := m.pc + count }

/-! ### Access from outside -/

/-- The value at an address. -/
def get (m : Machine) (a : Int) : Except Fault Int := do
  return m.memory.get (← address a)

/-- Write a value at an address. -/
def put (m : Machine) (a value : Int) : Except Fault Machine := do
  return { m with memory := m.memory.put (← address a) value }

/-- A machine of its own in the same position, which may be run whether or not this
one was. -/
def copy (m : Machine) : Machine := { m with memory := m.memory.copy, started := false }

/-! ### Parameters -/

/-- The value that the operand at the program counter refers to. -/
def inputParam (m : Machine) (mode : Mode) : Except Fault Int :=
  let operand := m.memory.get m.pc
  match mode with
  | .position => (address operand).map m.memory.get
  | .immediate => .ok operand
  | .relative => (address (m.relativeBase + operand)).map m.memory.get

/-- The address that the operand at the program counter designates for writing. -/
def outputParam (m : Machine) (mode : Mode) : Except Fault Int :=
  let operand := m.memory.get m.pc
  match mode with
  | .position => address operand
  | .immediate => Fault.raise (.immediateTarget m.pc)
  | .relative => address (m.relativeBase + operand)

/-- Parameter `i` of a word, its operand at the program counter.  The mode is decoded
before the use is looked at. -/
def param (m : Machine) (w : Word) (i : Nat) (role : Role) : Except Fault Int := do
  let mode ← w.mode i
  match role with
  | .input => m.inputParam mode
  | .output => m.outputParam mode
  | .unknown letter => Fault.raise (.unknownRole letter)

/-- The parameters of a word from parameter `i` on, one for each role, the operands
one after another from the program counter on. -/
def params (m : Machine) (w : Word) (i : Nat) : List Role → Reading
  | [] => ⟨[], none⟩
  | role :: roles =>
    match m.param w i role with
    | .error fault => ⟨[], some fault⟩
    | .ok value =>
      let rest := (m.advance 1).params w (i + 1) roles
      ⟨value :: rest.values, rest.fault?⟩

/-- Fetch the word at the program counter and move past it. -/
def readWord (m : Machine) : Except Fault Word × Machine :=
  (Word.ofInt (m.memory.get m.pc), m.advance 1)

/-- Read one input parameter and move past it. -/
def readInput (m : Machine) (mode : Mode) : Except Fault Int × Machine :=
  match m.inputParam mode with
  | .ok value => (.ok value, m.advance 1)
  | .error fault => (.error fault, m)

/-- Read one output parameter and move past it. -/
def readOutput (m : Machine) (mode : Mode) : Except Fault Int × Machine :=
  match m.outputParam mode with
  | .ok value => (.ok value, m.advance 1)
  | .error fault => (.error fault, m)

/-- Read the parameters of a word and move past those that were read. -/
def readParams (m : Machine) (w : Word) (roles : List Role) : Except Fault (List Int) × Machine :=
  let reading := m.params w 0 roles
  (reading.result, m.advance reading.values.length)

/-! ### Instructions -/

/-- The address that a jump to `target` leads to. -/
def jumpTarget (m : Machine) (target : Int) : Except Fault Int := do
  let target ← address target
  if m.bounded ∧ m.memory.extent ≤ target then Fault.raise (.jumpOutside target m.memory.extent)
  else return target

/-- Apply an effect.  The answer is `none` when the machine goes on. -/
def apply (m : Machine) : Effect → Except Fault (Option Stop) × Machine
  | .store a value => (.ok none, { m with memory := m.memory.put a value })
  | .await destination => (.ok (some (.input destination)), m)
  | .emit value => (.ok (some (.output value)), m)
  | .pass => (.ok none, m)
  | .jump target =>
    match m.jumpTarget target with
    | .ok a => (.ok none, { m with pc := a })
    | .error fault => (.error fault, m)
  | .shift offset => (.ok none, { m with relativeBase := m.relativeBase + offset })
  | .halt => (.ok (some .halt), m)

/-- Carry out the instruction at the program counter, whether or not the machine has
started. -/
def exec (m : Machine) : Except Fault (Option Stop) × Machine :=
  match m.readWord with
  | (.error fault, m') => (.error fault, m')
  | (.ok word, m') =>
    match Operation.ofCode? word.code with
    | none => (Fault.raise (.unknownCode word.code m.pc), m')
    | some operation =>
      match m'.readParams word operation.roles with
      | (.error fault, m'') => (.error fault, m'')
      | (.ok values, m'') => m''.apply (operation.effect fun i => values.getD i 0)

/-- Carry out one instruction of a machine that has not started.  A machine that stops
on it has started. -/
def step (m : Machine) : Except Fault (Option Stop) × Machine :=
  if m.started then (Fault.raise .alreadyStopped, m)
  else
    match m.exec with
    | (.ok (some stop), m') => (.ok (some stop), { m' with started := true })
    | result => result

end Machine

end Advent.Intcode
