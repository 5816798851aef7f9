/-
Machines, memories and stops as objects.

A store holds memories, machines and stops, and references to them stay valid for
its whole life.  A machine refers to its memory and a stop to its machine, so what is
done through one reference shows through every other: the memory of a halted machine
is the machine's own.  A stop is answered once.

A `Call` is one thing to do with the objects of a store, and `Store.perform` does it.
-/
import Advent.Intcode.Run

namespace Advent.Intcode

/-- A reference to a memory. -/
structure MemoryRef where
  index : Nat
  deriving DecidableEq, Repr, Inhabited

/-- A reference to a machine. -/
structure MachineRef where
  index : Nat
  deriving DecidableEq, Repr, Inhabited

/-- A reference to a stop. -/
structure StopRef where
  index : Nat
  deriving DecidableEq, Repr, Inhabited

/-- A machine as it is stored, with its memory apart. -/
structure Frame where
  memory : MemoryRef
  bounded : Bool
  pc : Int
  relativeBase : Int
  started : Bool
  deriving DecidableEq, Repr, Inhabited

/-- A stop as it is stored, with its machine and whether it was answered. -/
structure Stopped where
  machine : MachineRef
  stop : Stop
  answered : Bool
  deriving DecidableEq, Repr, Inhabited

/-- A store of memories, machines and stops. -/
structure Store where
  memories : Array Memory
  frames : Array Frame
  stops : Array Stopped

namespace Store

/-- The store without an object. -/
def empty : Store := ⟨#[], #[], #[]⟩

instance : Inhabited Store := ⟨empty⟩

/-! ### Objects -/

/-- The memory referred to. -/
def memory (s : Store) (r : MemoryRef) : Memory := s.memories.getD r.index default

/-- The stored form of the machine referred to. -/
def frame (s : Store) (r : MachineRef) : Frame := s.frames.getD r.index default

/-- The stored form of the stop referred to. -/
def stopped (s : Store) (r : StopRef) : Stopped := s.stops.getD r.index default

/-- The machine referred to, with its memory as it is now. -/
def machine (s : Store) (r : MachineRef) : Machine :=
  let f := s.frame r
  ⟨s.memory f.memory, f.bounded, f.pc, f.relativeBase, f.started⟩

/-- Change the memory referred to. -/
def setMemory (s : Store) (r : MemoryRef) (m : Memory) : Store :=
  { s with memories := s.memories.setIfInBounds r.index m }

/-- Bring the machine referred to, and its memory, into the state of `m`. -/
def setMachine (s : Store) (r : MachineRef) (m : Machine) : Store :=
  let f := s.frame r
  { s.setMemory f.memory m.memory with
    frames := s.frames.setIfInBounds r.index ⟨f.memory, m.bounded, m.pc, m.relativeBase, m.started⟩ }

/-- Add a memory. -/
def addMemory (s : Store) (m : Memory) : MemoryRef × Store :=
  (⟨s.memories.size⟩, { s with memories := s.memories.push m })

/-- Add a machine, with a memory of its own. -/
def addMachine (s : Store) (m : Machine) : MachineRef × Store :=
  let (memory, s) := s.addMemory m.memory
  let frame : Frame := ⟨memory, m.bounded, m.pc, m.relativeBase, m.started⟩
  (⟨s.frames.size⟩, { s with frames := s.frames.push frame })

/-- Add a stop of a machine. -/
def addStop (s : Store) (machine : MachineRef) (stop : Stop) : StopRef × Store :=
  (⟨s.stops.size⟩, { s with stops := s.stops.push ⟨machine, stop, false⟩ })

/-- Mark a stop as answered. -/
def markAnswered (s : Store) (r : StopRef) : Store :=
  { s with stops := s.stops.setIfInBounds r.index { s.stopped r with answered := true } }

end Store

/-! ### Calls -/

/-- Things to do with the objects of a store. -/
inductive Call where
  /-- Carry out one instruction. -/
  | step (m : MachineRef)
  /-- Run up to the first stop. -/
  | run (m : MachineRef)
  /-- Answer a stop, with a value where one is wanted, and go on up to the next. -/
  | resume (s : StopRef) (value : Int)
  /-- Run to the halt. -/
  | runWithInputs (m : MachineRef) (inputs : List Int)
  /-- The value at an address. -/
  | get (m : MachineRef) (address : Int)
  /-- Write a value at an address. -/
  | put (m : MachineRef) (address value : Int)
  /-- A machine of its own in the same position. -/
  | copy (m : MachineRef)
  /-- Fetch a word. -/
  | readWord (m : MachineRef)
  /-- Read an input parameter. -/
  | readInput (m : MachineRef) (mode : Mode)
  /-- Read an output parameter. -/
  | readOutput (m : MachineRef) (mode : Mode)
  /-- Read the parameters of a word that is given as a number. -/
  | readParams (m : MachineRef) (word : Int) (roles : List Role)
  deriving DecidableEq, Repr

/-- What a call gives back. -/
inductive Reply where
  /-- Nothing. -/
  | done
  /-- The machine goes on. -/
  | continues
  /-- The machine stopped. -/
  | stopped (stop : StopRef)
  /-- A number. -/
  | number (n : Int)
  /-- Numbers. -/
  | numbers (ns : List Int)
  /-- A new machine. -/
  | machine (m : MachineRef)
  deriving DecidableEq, Repr

namespace Store

/-- Put the machine into the state in which a call left it, and report a stop. -/
def settle (s : Store) (r : MachineRef) :
    Except Fault (Option Stop) × Machine → Except Fault Reply × Store
  | (.error fault, m) => (.error fault, s.setMachine r m)
  | (.ok none, m) => (.ok .continues, s.setMachine r m)
  | (.ok (some stop), m) =>
    let (ref, s) := (s.setMachine r m).addStop r stop
    (.ok (.stopped ref), s)

/-- Put the machine into the state in which reading left it, and report what was read. -/
def settleReading {α : Type} (s : Store) (r : MachineRef) (reply : α → Reply)
    (reading : Except Fault α × Machine) : Except Fault Reply × Store :=
  (reading.1.map reply, s.setMachine r reading.2)

/-- Do what a call says, running machines for at most `steps` instructions at a time. -/
def perform (steps : Nat) (s : Store) : Call → Option (Except Fault Reply × Store)
  | .step r => some (s.settle r (s.machine r).step)
  | .run r => do
    let (result, m) ← (s.machine r).run steps
    return s.settle r (result.map some, m)
  | .resume q value =>
    let h := s.stopped q
    let m := s.machine h.machine
    match h.stop, h.answered with
    | .halt, _ => some (Fault.raise .alreadyStopped, s)
    | .input _, true => some (Fault.raise (.alreadyResumed .input), s)
    | .output _, true => some (Fault.raise (.alreadyResumed .output), s)
    | stop, false => do
      let (result, m) ← (m.answer stop value).drive steps
      return (s.markAnswered q).settle h.machine (result.map some, m)
  | .runWithInputs r inputs => do
    let t ← (s.machine r).runWithInputs steps inputs
    return (t.result.map fun _ => .numbers t.outputs, s.setMachine r t.machine)
  | .get r a => some (((s.machine r).get a).map .number, s)
  | .put r a value =>
    match (s.machine r).put a value with
    | .ok m => some (.ok .done, s.setMachine r m)
    | .error fault => some (.error fault, s)
  | .copy r =>
    let (ref, s) := s.addMachine (s.machine r).copy
    some (.ok (.machine ref), s)
  | .readWord r => some (s.settleReading r (fun w => .number w.raw) (s.machine r).readWord)
  | .readInput r mode => some (s.settleReading r .number ((s.machine r).readInput mode))
  | .readOutput r mode => some (s.settleReading r .number ((s.machine r).readOutput mode))
  | .readParams r word roles =>
    match Word.ofInt word with
    | .error fault => some (.error fault, s)
    | .ok w => some (s.settleReading r .numbers ((s.machine r).readParams w roles))

end Store

end Advent.Intcode
