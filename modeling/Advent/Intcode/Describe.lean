/-
Machines, memories and stops in words.

A description writes out every integer it mentions, so it fails when one of them has
too many digits.
-/
import Advent.Intcode.Run

namespace Advent.Intcode

/-- A description that mentions integers: the text, unless one of them cannot be
written. -/
def mentioning (ns : List Int) (text : String) : Except Fault String :=
  if ns.all Numeral.fits then .ok text else .error .unwritable

/-- An instruction word in words. -/
def Word.describe (w : Word) : Except Fault String :=
  mentioning [w.raw] ("Opcode(raw=" ++ Numeral.write w.raw ++ ")")

/-- A memory in words: its values up to the extent. -/
def Memory.describe (m : Memory) : Except Fault String :=
  mentioning m.snapshot ("Memory(" ++ Fault.writeList m.snapshot ++ ")")

/-- A machine in words. -/
def Machine.describe (m : Machine) : Except Fault String :=
  mentioning [m.pc, m.relativeBase, m.memory.extent]
    ("Interpreter(pc=" ++ Numeral.write m.pc ++ ", relative_base=" ++ Numeral.write m.relativeBase ++
      ", extent=" ++ Numeral.write m.memory.extent ++ ")")

/-- A stop of a machine with this memory, in words. -/
def Stop.describe (memory : Memory) : Stop → Except Fault String
  | .input destination =>
    mentioning [destination] ("AwaitingInput(destination=" ++ Numeral.write destination ++ ")")
  | .output value => mentioning [value] ("HasOutput(value=" ++ Numeral.write value ++ ")")
  | .halt => memory.describe.map fun text => "Halted(memory=" ++ text ++ ")"

/-- The outcome of a step that left a machine with this memory, in words. -/
def describeOutcome (memory : Memory) : Option Stop → Except Fault String
  | none => .ok "CONTINUE"
  | some stop => stop.describe memory

/-- The number of addresses below the extent, where it is a size. -/
def Memory.size (m : Memory) : Except Fault Int :=
  if m.extent < 0 then Fault.raise .negativeSize
  else if Int.pow 2 63 ≤ m.extent then Fault.raise .oversize
  else .ok m.extent

/-- An event in words.  The halting instruction lies right before the program counter. -/
def Event.describe (e : Event) : Except Fault String :=
  match e.stop with
  | .input destination =>
    mentioning [destination, e.pc]
      ("Awaiting input for address " ++ Numeral.write destination ++ " (pc=" ++ Numeral.write e.pc ++ ")")
  | .output value =>
    mentioning [value, e.pc]
      ("Output " ++ Numeral.write value ++ " (pc=" ++ Numeral.write e.pc ++ ")")
  | .halt => mentioning [e.pc - 1] ("Halted at address " ++ Numeral.write (e.pc - 1))

end Advent.Intcode
