/-
What a verbose session says.

The log begins with the day and its arguments, and goes on with an entry for each stop, in the
order of the stops.  Nearly every entry is a line.  A stop that names an integer with too many
digits cannot be put into words, and the complaint of the logger about it stands in its place; the
session does not notice.  `Said` describes the whole without reference to how it is put together,
and `said_iff` says that there is just one text of this description.
-/
import Advent.CommandLine.Session
import Advent.Proofs.Raises

namespace Advent

open Intcode
open Numeral (Overlong)

/-! ### Stops in words

The words for a stop name the program counter and whatever the stop is about.  An integer among them
that is too long to be written leaves no words for the stop.
-/

/-- The stop in words.  Every integer in them can be written. -/
inductive Intcode.Worded : Event → String → Prop where
  | input {destination pc : Int} (hdestination : ¬ Overlong destination) (hpc : ¬ Overlong pc) :
      Worded ⟨.input destination, pc⟩
        ("Awaiting input for address " ++ toString destination ++ " (pc=" ++ toString pc ++ ")")
  | output {value pc : Int} (hvalue : ¬ Overlong value) (hpc : ¬ Overlong pc) :
      Worded ⟨.output value, pc⟩ ("Output " ++ toString value ++ " (pc=" ++ toString pc ++ ")")
  /-- The instruction that halts lies right before the program counter. -/
  | halt {pc : Int} (haddress : ¬ Overlong (pc - 1)) :
      Worded ⟨.halt, pc⟩ ("Halted at address " ++ toString (pc - 1))

/-- The integers in the words for a stop. -/
def Intcode.Event.mentions (e : Event) : List Int :=
  match e.stop with
  | .input destination => [destination, e.pc]
  | .output value => [value, e.pc]
  | .halt => [e.pc - 1]

namespace CommandLine

/-! ### The log -/

variable {traces : Traces} {i : Invocation}

/-- The log of some stops, of which the first has this number in its session. -/
inductive Logged (traces : Traces) : Nat → List Event → String → Prop where
  | nil (index : Nat) : Logged traces index [] ""
  | line {index : Nat} {e : Event} {events : List Event} {text rest : String} (htext : Worded e text)
      (hrest : Logged traces (index + 1) events rest) :
      Logged traces index (e :: events) ("DEBUG aoc2019.intcode: " ++ text ++ "\n" ++ rest)
  /-- The complaint says what went wrong and where, and that it cannot even repeat the entry. -/
  | complaint {index : Nat} {e : Event} {events : List Event} {n : Int} {rest : String}
      (hn : n ∈ e.mentions) (hlong : Overlong n) (hrest : Logged traces (index + 1) events rest) :
      Logged traces index (e :: events)
        ("--- Logging error ---\nTraceback (most recent call last):\n" ++ traces.logger ++
          "ValueError: " ++ ("Exceeds the limit (4300 digits) for integer string conversion; " ++
          "use sys.set_int_max_str_digits() to increase the limit") ++ "\nCall stack:\n" ++ traces.stop index ++
          "Unable to print the message and arguments - possible formatting error.\n" ++
          "Use the traceback above to help find the error.\n" ++ rest)

/-- What a session says before it ends: nothing, unless it is verbose. -/
inductive Said (traces : Traces) (i : Invocation) (events : List Event) : String → Prop where
  | quiet (hquiet : i.verbose = false) : Said traces i events ""
  | verbose {log : String} (hverbose : i.verbose = true) (hlog : Logged traces 0 events log) :
      Said traces i events
        ("DEBUG aoc2019.cli: Running day " ++ toString i.day ++ " with " ++ Text.quoteAll i.args ++ "\n" ++
          log)

end CommandLine

end Advent
