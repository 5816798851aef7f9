/-
One session of the command line.

The arguments name a day and what its solver takes.  Both answers are printed, or a
fault of the puzzle or of the file system is reported; any other fault ends the
session, and so does an answer that cannot be written, after those before it.

A verbose session says what it does, in the order in which it happens: which day it
looks for an answer to, and where the machines of that day stop.  A stop that names an
integer too long to be written is not put into words; the logger complains of it
instead and lets the session go on.
-/
import Advent.Calendar
import Advent.CommandLine.Arguments
import Advent.Intcode.Describe

namespace Advent.CommandLine

open Advent.Intcode

/-- What a session printed and the code it ended with. -/
structure Printed where
  code : Nat
  stdout : String
  stderr : String
  deriving DecidableEq, Repr

/-- A fault that ends a session unreported, and what was printed before it. -/
structure Uncaught where
  fault : Fault
  stdout : String
  stderr : String
  deriving DecidableEq, Repr

/-- The fault, where it does not matter what was printed. -/
instance : Coe Uncaught Fault := ⟨Uncaught.fault⟩

/-- How a session ends. -/
inductive Ending where
  /-- With something printed. -/
  | printed (p : Printed)
  /-- With a code, before a day was looked for. -/
  | exit (code : Nat)
  /-- With a fault that is not reported. -/
  | fault (f : Uncaught)
  deriving DecidableEq, Repr

/-! ### The log -/

/-- The lines of program text that a complaint of the logger points at: those inside the
logger, and those on the way to a stop, by the number of the stop in its session.  They
depend on where the program is installed and on how it was called. -/
structure Traces where
  logger : String := ""
  stop : Nat → String := fun _ => ""

/-- The line that a verbose session begins with. -/
def startLine (i : Invocation) : String :=
  "DEBUG aoc2019.cli: Running day " ++ Numeral.write i.day ++ " with " ++ Text.quoteAll i.args ++ "\n"

/-- The complaint about an entry that cannot be put into words because of a fault. -/
def complaint (traces : Traces) (index : Nat) (f : Fault) : String :=
  "--- Logging error ---\nTraceback (most recent call last):\n" ++ traces.logger ++
    "ValueError: " ++ f.message ++ "\nCall stack:\n" ++ traces.stop index ++
    "Unable to print the message and arguments - possible formatting error.\n" ++
    "Use the traceback above to help find the error.\n"

/-- The entry of an event, which is one line if the event can be put into words. -/
def entry (traces : Traces) (index : Nat) (e : Event) : String :=
  match e.describe with
  | .ok text => "DEBUG aoc2019.intcode: " ++ text ++ "\n"
  | .error f => complaint traces index f

/-- The entries of events, of which the first has this number. -/
def entries (traces : Traces) : Nat → List Event → String
  | _, [] => ""
  | index, e :: rest => entry traces index e ++ entries traces (index + 1) rest

/-- What a session says before it ends, if the machines of its day stop so. -/
def account (traces : Traces) (i : Invocation) (events : List Event) : String :=
  if i.verbose then startLine i ++ entries traces 0 events else ""

/-! ### The ending -/

/-- A text whose later lines are set below the first, past the label of an answer. -/
def indent (text : String) : String :=
  "\n   ".intercalate ((Text.splitLines text.toList).map String.ofList)

/-- Print answers one after the other, after what was said.  Nothing catches the fault of
one that cannot be written. -/
def printAnswers (said : String) (answers : Answers) : Ending :=
  match answers.first.text with
  | .error f => .fault ⟨f, "", said⟩
  | .ok first =>
    let printed := "A: " ++ indent first ++ "\n"
    match answers.second.text with
    | .error f => .fault ⟨f, printed, said⟩
    | .ok second => .printed ⟨0, printed ++ "B: " ++ indent second ++ "\n", said⟩

/-- End a session with a fault, after what was said. -/
def report (said : String) (f : Fault) : Ending :=
  if f.kind.isReported then .printed ⟨1, "", said ++ "error: " ++ f.message ++ "\n"⟩
  else .fault ⟨f, "", said⟩

/-- A session, running machines for at most `steps` instructions at a time. -/
def run (steps : Nat) (read : Reader) (argv : List String) (traces : Traces := {}) : Option Ending :=
  match readArguments argv with
  | .error code => some (.exit code)
  | .ok i =>
    match Day.ofNumber i.day with
    | .error f => some (report "" f)
    | .ok day =>
      match day.solve steps {} read i.args with
      | none => none
      | some ⟨events, .error f⟩ => some (report (account traces i events) f)
      | some ⟨events, .ok answers⟩ => some (printAnswers (account traces i events) answers)

end Advent.CommandLine
