import Advent.Main
import Advent.Intcode.Store
import Advent.Proofs.Intcode.Instruction
import Advent.Proofs.Intcode.Converse
import Advent.Proofs.Intcode.Once
import Advent.Proofs.Intcode.Bounded
import Advent.Proofs.Intcode.Failure
import Advent.Proofs.Intcode.Agreement
import Advent.Proofs.Intcode.Fork
import Advent.Proofs.Intcode.Isolation
import Advent.Proofs.Intcode.Endless
import Advent.Proofs.Intcode.Stepping
import Advent.Proofs.Intcode.Causality
import Advent.Proofs.Intcode.Course
import Advent.Proofs.Intcode.History
import Advent.Proofs.Intcode.Program
import Advent.Proofs.Intcode.Extent
import Advent.Proofs.Intcode.Support
import Advent.Proofs.Intcode.Reading
import Advent.Proofs.Intcode.Modes
import Advent.Proofs.Intcode.Encoding
import Advent.Proofs.Grid.Notation
import Advent.Proofs.Puzzle.Fuel
import Advent.Proofs.Puzzle.Crossings
import Advent.Proofs.Puzzle.Password
import Advent.Proofs.Puzzle.Occurrences
import Advent.Proofs.Puzzle.Diagnostic
import Advent.Proofs.Puzzle.Transfers
import Advent.Proofs.Puzzle.Circles
import Advent.Proofs.Puzzle.LineOrder
import Advent.Proofs.Puzzle.Search
import Advent.Proofs.Puzzle.Picture
import Advent.Proofs.Puzzle.Checksum
import Advent.Proofs.Layout
import Advent.Proofs.CommandLine.Session
