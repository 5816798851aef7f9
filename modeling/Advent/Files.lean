/-
Files and their texts.

A tree of files is known by its files, each under the names that lead to it from the
root, and by the place of the working directory in it.  A path is followed name by
name, from the root if it begins with a slash and from the working directory if not.
What comes of it depends on where that first fails: at a name that is not there, at one
that is too long, or at a file that the path goes on below.

The text of a file is UTF-8 with its line endings unified.  Its lines are those with
something on them, without the blanks around it; a file that is wanted for its lines
is read in blocks.
-/
import Advent.Fault
import Advent.Text.Lines

namespace Advent

/-- Where the contents of a path come from. -/
abbrev Reader := String → Except Fault ByteArray

/-- A working directory in a tree of files. -/
structure Directory where
  /-- The files, each under the names that lead to it from the root. -/
  files : List (List String × ByteArray)
  /-- The names that lead from the root to the working directory. -/
  place : List String := []

namespace Directory

/-- The most bytes in a name. -/
def nameLimit : Nat := 255

/-- The most bytes in a path. -/
def pathLimit : Nat := 4095

/-- The names in a path; empty names and single dots lead nowhere else. -/
def names (path : String) : List String :=
  ((path.toList.splitOn '/').map String.ofList).filter fun name => name ≠ "" ∧ name ≠ "."

/-- Whether the end of a path asks for a directory. -/
def wantsDirectory (path : String) : Bool :=
  match (path.toList.splitOn '/').getLast? with
  | some last => last == [] || last == ['.']
  | none => false

/-- A working directory with files under paths; of two files under one path the later
one counts.  It lies right below the root, under a name that no path can write. -/
def ofList (files : List (String × ByteArray)) : Directory :=
  let place := [""]
  ⟨files.reverse.map fun (path, bytes) => (place ++ names path, bytes), place⟩

/-- Whether names from the root lead to a directory that is known of: one on the way to
the working directory, or one with a file somewhere below it. -/
def isDirectory (d : Directory) (place : List String) : Bool :=
  place.isPrefixOf d.place || d.files.any fun (file, _) => place.isPrefixOf file

/-- Follow names from the directory that the names in `place` lead to.  The way up from
the root leads to the root. -/
def follow (d : Directory) (path : String) (place : List String) : List String → Except Fault ByteArray
  | [] => Fault.raise (.directory path)
  | name :: rest =>
    if name = ".." then d.follow path place.dropLast rest
    else if nameLimit < name.utf8ByteSize then Fault.raise (.longName path)
    else
      let place := place ++ [name]
      match d.files.lookup place with
      | some bytes =>
        if rest.isEmpty && !wantsDirectory path then .ok bytes else Fault.raise (.notDirectory path)
      | none => if d.isDirectory place then d.follow path place rest else Fault.raise (.noFile path)

/-- The contents of a path. -/
def read (d : Directory) : Reader := fun path =>
  if path.contains '\x00' then Fault.raise .nulInPath
  else if path = "" then Fault.raise (.noFile path)
  else if pathLimit < path.utf8ByteSize then Fault.raise (.longName path)
  else d.follow path (if path.startsWith "/" then [] else d.place) (names path)

end Directory

namespace Text

/-- The size of the blocks in which a file is read for its lines. -/
def blockSize : Nat := 8192

/-- The text of a file that is read in blocks of the given size, or all at once. -/
def ofFile (block? : Option Nat) (bytes : ByteArray) : Except Fault String :=
  match decode block? bytes with
  | .ok s => .ok (String.ofList (unifyNewlines s.toList))
  | .error malformed => Fault.raise (.encoding malformed)

/-- The lines of a text that are not blank, trimmed. -/
def nonblankLines (s : String) : List String :=
  (((s.toList.splitOn '\n').map trim).filter fun line => !line.isEmpty).map String.ofList

/-- The lines of a file that are not blank, trimmed. -/
def linesOfFile (bytes : ByteArray) : Except Fault (List String) :=
  (ofFile (some blockSize) bytes).map nonblankLines

end Text

end Advent
