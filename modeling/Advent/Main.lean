/-
The program: the command line with the files of the machine it runs on.
-/
import Advent.CommandLine.Session

namespace Advent

/-- The contents of a path, or why there are none.  The code of what is a directory comes
with either sign. -/
def readPath (path : String) : IO (Except Fault ByteArray) := do
  try
    return .ok (← IO.FS.readBinFile path)
  catch
    | .inappropriateType _ code _ =>
      return Fault.raise (if code = 21 ∨ code = -21 then .directory path else .notDirectory path)
    | _ => return Fault.raise (.noFile path)

/-- The most instructions that a machine carries out between two stops. -/
def stepLimit : Nat := Nat.pow 2 62

end Advent

open Advent in
/-- One session of the command line.  The files that the arguments may name are read
before it. -/
def main (argv : List String) : IO UInt32 := do
  let paths := match CommandLine.readArguments argv with
    | .ok i => i.args
    | .error _ => []
  let contents ← paths.mapM fun path => return (path, ← readPath path)
  let read : Reader := fun path => (contents.lookup path).getD (Fault.raise (.noFile path))
  match CommandLine.run stepLimit read argv with
  | some (.printed p) =>
    IO.eprint p.stderr
    IO.print p.stdout
    return p.code.toUInt32
  | some (.exit code) => return code.toUInt32
  | some (.fault f) =>
    IO.eprint f.stderr
    IO.print f.stdout
    IO.eprintln f.fault.message
    return 1
  | none => return 1
