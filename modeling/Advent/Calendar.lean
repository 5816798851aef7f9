/-
The days of the calendar and their puzzles.

Eight of the twenty-five days are solved.  A solver takes the arguments of its day,
which are one path to the puzzle input for all days but one, and gives two answers.
-/
import Advent.Files
import Advent.Settings
import Advent.Intcode.Program
import Advent.Puzzle.Boost
import Advent.Puzzle.Diagnostic
import Advent.Puzzle.Fuel
import Advent.Puzzle.GravityAssist
import Advent.Puzzle.Image
import Advent.Puzzle.Orbits
import Advent.Puzzle.Password
import Advent.Puzzle.Wires

namespace Advent

open Advent.Intcode

/-- The solved days, in the order of the calendar. -/
inductive Day where
  | fuel
  | gravityAssist
  | wires
  | password
  | diagnostic
  | orbits
  | image
  | boost
  deriving DecidableEq, Repr

namespace Day

/-- The first day of the calendar. -/
def first : Nat := 1

/-- The last day of the calendar. -/
def last : Nat := 25

/-- The number of a day. -/
def number : Day → Nat
  | fuel => 1
  | gravityAssist => 2
  | wires => 3
  | password => 4
  | diagnostic => 5
  | orbits => 6
  | image => 8
  | boost => 9

/-- The solved days, in the order of the calendar. -/
def all : List Day := [fuel, gravityAssist, wires, password, diagnostic, orbits, image, boost]

/-- The solved day of a number. -/
def ofNumber (n : Int) : Except Fault Day :=
  match all.find? fun day => (day.number : Int) = n with
  | some day => .ok day
  | none =>
    if first ≤ n ∧ n ≤ last then Fault.raise (.unsolvedDay n (all.map number))
    else Fault.raise (.unknownDay n)

/-! ### Solvers by name

A solver is kept under a module name that ends in the number of its day, in a file
whose name starts with `day`.
-/

/-- The name of the module of a day. -/
def moduleName (day : Day) : String := "aoc2019.days.day" ++ toString day.number

/-- The number in the name of a day's file, if the name is of that form. -/
def numberOfFile? (name : String) : Except Fault (Option Nat) :=
  let cs := name.toList
  let start := "day".toList
  let ending := ".py".toList
  let digits := (cs.drop start.length).take (cs.length - start.length - ending.length)
  if cs ≠ start ++ digits ++ ending ∨ digits = [] then .ok none
  else
    match digits.mapM Text.decimalValue? with
    | none => .ok none
    | some values =>
      match Numeral.ofDigits (values.map Nat.digitChar) with
      | .ok n => .ok (some n)
      | .error defect => Fault.raise (.unreadable defect)

/-- What a module holds under the name of its entry point. -/
inductive Entry where
  | missing
  | function
  | value
  deriving DecidableEq, Repr

/-- Whether a module with this entry point is a solver. -/
def Entry.isSolver (e : Entry) : Bool := e matches .function

end Day

/-! ### Answers -/

/-- An answer to half a puzzle. -/
inductive Answer where
  | number (n : Int)
  | picture (text : String)
  deriving DecidableEq, Repr

/-- The text of an answer. -/
def Answer.text : Answer → Except Fault String
  | number n => if Numeral.fits n then .ok (Numeral.write n) else .error .unwritable
  | picture text => .ok text

/-- The answers to both halves of a puzzle. -/
structure Answers where
  first : Answer
  second : Answer
  deriving DecidableEq, Repr

/-- Two numbers as answers. -/
def Answers.ofNumbers (pair : Int × Int) : Answers := ⟨.number pair.1, .number pair.2⟩

namespace Day

/-- Refuse any other number of arguments. -/
def expectArguments (args : List String) (count : Int) (wanted : String) : Except Fault Unit :=
  if args.length = count then .ok () else Fault.raise (.arguments wanted)

/-- The contents of the file that is the only argument. -/
def input (read : Reader) (args : List String) : Except Fault ByteArray := do
  expectArguments args 1 "Expected path to input"
  read (args.headD "")

/-- The lines of the file that is the only argument. -/
def inputLines (read : Reader) (args : List String) : Except Fault (List String) := do
  Text.linesOfFile (← input read args)

/-- The machine loaded with the program that is in the file that is the only argument. -/
def inputMachine (read : Reader) (args : List String) : Except Fault Machine := do
  Machine.ofText false (← Text.ofFile none (← input read args))

/-- Solve the puzzle of a day for some arguments. -/
def solve (steps : Nat) (s : Settings) (read : Reader) (args : List String) : Day → Trial Answers
  | fuel => do
    let masses ← Puzzle.Fuel.parseMasses (← inputLines read args)
    return .ofNumbers (Puzzle.Fuel.solve masses)
  | gravityAssist => do
    let m ← inputMachine read args
    return .ofNumbers (← Puzzle.GravityAssist.solve steps m s.gravityNoun s.gravityVerb s.gravityTarget)
  | wires => do
    let (distance, length) ← Puzzle.Wires.solveLines (← inputLines read args)
    return .ofNumbers (distance, length)
  | password => do
    expectArguments args 2 "Expected start and end"
    let counts ← Puzzle.Password.solve (args.getD 0 "") (args.getD 1 "")
    return .ofNumbers (counts.valid, counts.strict)
  | diagnostic => do
    let m ← inputMachine read args
    return .ofNumbers (← Puzzle.Diagnostic.solve steps m s.airConditioner s.thermalRadiator)
  | orbits => do
    let map ← Puzzle.Orbits.OrbitMap.parse (← inputLines read args)
    match map.solve? s.orbitOrigin s.orbitDestination with
    | none => none
    | some result => do
      let (total, transfers) ← result
      return .ofNumbers (total, transfers)
  | image => do
    let (sum, picture) ← Puzzle.Image.solveLines s.imageWidth s.imageHeight (← inputLines read args)
    return ⟨.number sum, .picture picture⟩
  | boost => do
    let m ← inputMachine read args
    return .ofNumbers (← Puzzle.Boost.solve steps m s.boostTest s.boostSensor)

end Day

end Advent
