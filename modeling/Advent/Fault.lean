/-
What can go wrong, and how it is said.

A `Fault` is a cause; `Fault.message` is its wording and `Fault.kind` its place in
the family of error kinds.  An integer with too many digits cannot be written, so a
fault that would name one is reported as `unwritable` instead: everything that fails
goes through `Fault.raise`, which makes that exchange.
-/
import Advent.Numeral
import Advent.Text.Utf8

namespace Advent

/-! ### Kinds

The kinds form a forest.  Two of them, `puzzle` and `machine`, are never raised: they
stand for all kinds below them.
-/

/-- The kinds of faults. -/
inductive Kind where
  | puzzle
  | machine
  | malformedProgram
  | invalidOpcode
  | invalidMode
  | immediateTarget
  | negativeAddress
  | jumpOutside
  | consumed
  | inputExhausted
  | puzzleInput
  | noSolution
  | value
  | overflow
  | key
  | noFile
  | directory
  | noDirectory
  | fileSystem
  | encoding
  deriving DecidableEq, Repr

namespace Kind

/-- The kind right above a kind. -/
def parent? : Kind → Option Kind
  | malformedProgram | invalidOpcode | invalidMode | immediateTarget | negativeAddress | jumpOutside
  | consumed | inputExhausted => some machine
  | machine | puzzleInput | noSolution => some puzzle
  | noFile | directory | noDirectory => some fileSystem
  | puzzle | value | overflow | key | fileSystem | encoding => none

/-- The kind and those above it, nearest first.  No kind has more than two above it. -/
def lineage (k : Kind) : List Kind :=
  match k.parent? with
  | none => [k]
  | some p => k :: p :: p.parent?.toList

/-- Whether the command line reports a fault of this kind to its user: the faults of
puzzles, and those of the file system. -/
def isReported (k : Kind) : Bool :=
  k.lineage.contains puzzle || k.lineage.contains fileSystem

end Kind

/-! ### Causes -/

/-- The two ways in which a machine pauses. -/
inductive Pause where
  | input
  | output
  deriving DecidableEq, Repr

/-- The name of a pause. -/
def Pause.name : Pause → String
  | .input => "AwaitingInput"
  | .output => "HasOutput"

/-- A cause of failure. -/
inductive Fault where
  /-- A program without a single value. -/
  | emptyProgram
  /-- A token of a program text that is no integer. -/
  | badToken (token : String) (position : Nat)
  /-- An instruction word below zero. -/
  | negativeWord (word : Int)
  /-- A code that names no operation. -/
  | unknownCode (code : Nat) (address : Int)
  /-- A mode digit above 2. -/
  | unknownMode (digit : Nat) (parameter : Int) (word : Nat)
  /-- A parameter to be written to, in immediate mode. -/
  | immediateTarget (address : Int)
  /-- An address below zero. -/
  | negativeAddress (address : Int)
  /-- A jump of a bounded machine to an address past its memory. -/
  | jumpOutside (target extent : Int)
  /-- A run of a machine that was run or has stopped. -/
  | alreadyRun
  /-- A step of a machine that was run or has stopped. -/
  | alreadyStopped
  /-- A second resumption of one pause. -/
  | alreadyResumed (pause : Pause)
  /-- A request for input after the last of this many values. -/
  | inputExhausted (supplied : Nat)
  /-- A letter that stands for no use of a parameter. -/
  | unknownRole (letter : Char)
  /-- A text that is not read as an integer. -/
  | unreadable (defect : Numeral.Defect)
  /-- An integer whose numeral would be too long. -/
  | unwritable
  /-- A memory whose size would be negative. -/
  | negativeSize
  /-- A memory whose size is no machine index. -/
  | oversize
  /-- A text where a direction is wanted. -/
  | notDirection (text : String)
  /-- A run of a wire written with fewer than two characters. -/
  | shortRun (length : Nat)
  /-- A letter that is no heading. -/
  | unknownHeading (letter : Char)
  /-- A length that is no run of digits. -/
  | badLength (length run : String)
  /-- The wrong number of arguments, said in the words of the puzzle. -/
  | arguments (wanted : String)
  /-- A mass that is not read as an integer. -/
  | badMass (defect : Numeral.Defect)
  /-- A program that asks for input or gives output where neither is supported. -/
  | suspended
  /-- A search for a noun and a verb that found none. -/
  | noNounVerb (target : Int)
  /-- Fewer than two wires. -/
  | missingWire (found : Nat)
  /-- Two wires without a common position. -/
  | noCrossing
  /-- Bounds of a range that are not both integers. -/
  | badRange (first last : String)
  /-- A second request for input where one value is given. -/
  | inputConsumed
  /-- A program that halted without output. -/
  | noOutput
  /-- Codes that a self-test reported before its last output. -/
  | malfunction (codes : List Int)
  /-- A line of an orbit map without a separator. -/
  | noSeparator (line : String)
  /-- A line of an orbit map with several separators. -/
  | extraSeparator (line : String)
  /-- Two objects that orbit nothing in common. -/
  | unconnected (a b : String)
  /-- Image data with a character that is no digit, or without any. -/
  | notDigits
  /-- Image data that does not consist of whole layers. -/
  | unevenLayers (size : Int) (digits : Nat)
  /-- An image file without a line. -/
  | emptyImage
  /-- A day of the calendar without a solver. -/
  | unsolvedDay (day : Int) (solved : List Nat)
  /-- A number that is no day of the calendar. -/
  | unknownDay (day : Int)
  /-- A path that leads nowhere. -/
  | noFile (path : String)
  /-- A path that leads to a directory. -/
  | directory (path : String)
  /-- A path that goes on below a file. -/
  | notDirectory (path : String)
  /-- A path with a name that is too long. -/
  | longName (path : String)
  /-- A path with a NUL. -/
  | nulInPath
  /-- A file whose bytes are no text. -/
  | encoding (malformed : Text.Malformed)
  deriving DecidableEq, Repr

namespace Fault

/-- The kind of a fault. -/
def kind : Fault → Kind
  | emptyProgram | badToken .. => .malformedProgram
  | negativeWord _ | unknownCode .. => .invalidOpcode
  | unknownMode .. => .invalidMode
  | immediateTarget _ => .immediateTarget
  | negativeAddress _ => .negativeAddress
  | jumpOutside .. => .jumpOutside
  | alreadyRun | alreadyStopped | alreadyResumed _ => .consumed
  | inputExhausted _ => .inputExhausted
  | unknownRole _ => .key
  | unreadable _ | unwritable | negativeSize | notDirection _ | nulInPath => .value
  | oversize => .overflow
  | noNounVerb _ | noCrossing | unconnected .. => .noSolution
  | noFile _ => .noFile
  | directory _ => .directory
  | notDirectory _ => .noDirectory
  | longName _ => .fileSystem
  | encoding _ => .encoding
  | shortRun _ | unknownHeading _ | badLength .. | arguments _ | badMass _ | suspended | missingWire _
  | badRange .. | inputConsumed | noOutput | malfunction _ | noSeparator _ | extraSeparator _
  | notDigits | unevenLayers .. | emptyImage | unsolvedDay .. | unknownDay _ => .puzzleInput

/-- The integers that the message of a fault writes out and that are not bounded by
the size of some text or list. -/
def integers : Fault → List Int
  | negativeWord word => [word]
  | unknownCode _ address => [address]
  | unknownMode _ parameter word => [parameter, word]
  | immediateTarget address | negativeAddress address => [address]
  | jumpOutside target extent => [target, extent]
  | noNounVerb target => [target]
  | malfunction codes => codes
  | unevenLayers size _ => [size]
  | unsolvedDay day _ | unknownDay day => [day]
  | _ => []

/-- The fault as it is reported: `unwritable` in place of one that would name an
integer with too many digits. -/
def reported (f : Fault) : Fault :=
  if f.integers.all Numeral.fits then f else unwritable

/-- Fail with a fault as it is reported. -/
def raise {α : Type} (f : Fault) : Except Fault α :=
  .error f.reported

/-! ### Wording -/

/-- Integers between brackets, separated by commas. -/
def writeList (ns : List Int) : String :=
  "[" ++ ", ".intercalate (ns.map Numeral.write) ++ "]"

/-- A fault in words. -/
def message : Fault → String
  | emptyProgram => "Program is too short (expected at least 1 element, got 0)"
  | badToken token position =>
    "Invalid integer " ++ Text.quote token ++ " at position " ++ toString position
  | negativeWord word => "Instruction word must not be negative, got " ++ Numeral.write word
  | unknownCode code address =>
    "Got invalid opcode " ++ toString code ++ " at address " ++ Numeral.write address
  | unknownMode digit parameter word =>
    "Invalid parameter mode " ++ toString digit ++ " for parameter " ++ Numeral.write parameter ++
      " of " ++ Numeral.write word
  | immediateTarget address =>
    "Output parameter at address " ++ Numeral.write address ++ " must not be in immediate mode"
  | negativeAddress address => "Address must not be negative, got " ++ Numeral.write address
  | jumpOutside target extent =>
    "Jump target " ++ Numeral.write target ++ " is outside memory of extent " ++ Numeral.write extent
  | alreadyRun => "Interpreter has already been run; copy() it to run again"
  | alreadyStopped => "Interpreter has already stopped; drive it through its state"
  | alreadyResumed pause => pause.name ++ " has already been resumed"
  | inputExhausted supplied =>
    "Program requested input #" ++ toString (supplied + 1) ++ " but only " ++ toString supplied ++
      " were supplied"
  | unknownRole letter => Text.quote letter.toString
  | unreadable defect => defect.message
  | unwritable =>
    "Exceeds the limit (" ++ toString Numeral.maxDigits ++ " digits) for integer string conversion; " ++
      "use sys.set_int_max_str_digits() to increase the limit"
  | negativeSize => "__len__() should return >= 0"
  | oversize => "cannot fit 'int' into an index-sized integer"
  | notDirection text => "Unknown direction: " ++ text
  | shortRun length => "String must be at least two characters, got " ++ toString length
  | unknownHeading letter => "Unexpected direction " ++ Text.quote letter.toString
  | badLength length run => "Invalid length " ++ Text.quote length ++ " in " ++ Text.quote run
  | arguments wanted => wanted
  | badMass defect => "Module mass must be an integer: " ++ defect.message
  | suspended => "Program tried to do IO, but it's not supported today"
  | noNounVerb target => "Unable to find a noun and verb that produce " ++ Numeral.write target
  | missingWire found => "Expected two wires, got " ++ toString found
  | noCrossing => "The wires never cross"
  | badRange first last =>
    "Range bounds must be integers, got " ++ Text.quote first ++ " and " ++ Text.quote last
  | inputConsumed => "Input value already consumed"
  | noOutput => "No output produced by computer"
  | malfunction codes => "Malfunctioning opcodes reported: " ++ writeList codes
  | noSeparator line => "No orbit separator found in " ++ Text.quote line
  | extraSeparator line => "More than one orbit separator in " ++ Text.quote line
  | unconnected a b => a ++ " and " ++ b ++ " do not orbit a common object"
  | notDigits => "Character is not a base 10 digit"
  | unevenLayers size digits =>
    "Layer size " ++ Numeral.write size ++ " must evenly divide the " ++ toString digits ++ " input digits"
  | emptyImage => "Unable to read file"
  | unsolvedDay day solved =>
    "No implementation for day " ++ Numeral.write day ++ " yet. Available: " ++
      ", ".intercalate (solved.map toString)
  | unknownDay day => "Day " ++ Numeral.write day ++ " is not a valid day for advent of code"
  | noFile path => "[Errno 2] No such file or directory: " ++ Text.quote path
  | directory path => "[Errno 21] Is a directory: " ++ Text.quote path
  | notDirectory path => "[Errno 20] Not a directory: " ++ Text.quote path
  | longName path => "[Errno 36] File name too long: " ++ Text.quote path
  | nulInPath => "embedded null byte"
  | encoding malformed => malformed.message

end Fault

end Advent
