/-
Texts from bytes.

Bytes are a text when they are UTF-8.  When they are not, the first malformed
sequence is located: where it starts, how many of its bytes were still well formed,
and what was wrong.  The search keeps, inside a sequence, the number of continuation
bytes it still owes and the range that the next one must lie in; the range is
narrower than 80 to BF only for the second byte, where it shuts out overlong forms,
surrogates and numbers above 10FFFF.

Bytes come in all at once or in blocks.  A block is decoded as soon as it is there,
but for what is held back at its end: a sequence that is not complete, or the two
bytes that a surrogate would begin with.  Positions are counted from the first byte
that was not decoded before.
-/
import Advent.Text.Quoted

namespace Advent.Text

/-- What makes a sequence of bytes malformed. -/
inductive Defect where
  /-- No sequence starts with this byte. -/
  | start
  /-- A byte that should continue the sequence does not. -/
  | continuation
  /-- The bytes end inside the sequence. -/
  | cutShort
  deriving DecidableEq, Repr, Inhabited

/-- The first malformed sequence of some bytes: its position among the bytes that were
not decoded before, its first byte, the number of its bytes that were well formed (the
first one counted), and the defect. -/
structure Malformed where
  position : Nat
  first : Nat
  width : Nat
  defect : Defect
  deriving DecidableEq, Repr, Inhabited

/-- A sequence that still owes continuation bytes, the next one between `least` and
`greatest`. -/
structure Pending where
  position : Nat
  first : Nat
  taken : Nat
  owed : Nat
  least : Nat
  greatest : Nat

/-- The sequence that byte `first` opens at a position, or none when it opens none.
A byte below 80 is a sequence of its own and is not asked for here. -/
def Pending.open? (position first : Nat) : Option Pending :=
  if 0xC2 ≤ first ∧ first ≤ 0xDF then some ⟨position, first, 1, 1, 0x80, 0xBF⟩
  else if first = 0xE0 then some ⟨position, first, 1, 2, 0xA0, 0xBF⟩
  else if first = 0xED then some ⟨position, first, 1, 2, 0x80, 0x9F⟩
  else if 0xE1 ≤ first ∧ first ≤ 0xEF then some ⟨position, first, 1, 2, 0x80, 0xBF⟩
  else if first = 0xF0 then some ⟨position, first, 1, 3, 0x90, 0xBF⟩
  else if 0xF1 ≤ first ∧ first ≤ 0xF3 then some ⟨position, first, 1, 3, 0x80, 0xBF⟩
  else if first = 0xF4 then some ⟨position, first, 1, 3, 0x80, 0x8F⟩
  else none

/-- The sequence after one more byte: `none` once it is complete. -/
def Pending.next? (p : Pending) : Option Pending :=
  if p.owed ≤ 1 then none
  else some { p with taken := p.taken + 1, owed := p.owed - 1, least := 0x80, greatest := 0xBF }

/-- The malformed sequence that `p` turns out to be, in bytes that were decoded up to
`origin`. -/
def Pending.malformed (p : Pending) (origin : Nat) (defect : Defect) : Malformed :=
  ⟨p.position - origin, p.first, p.taken, defect⟩

/-- Up to where bytes are decoded once the byte at `position` is there, when they were
decoded up to `origin` before.  A new block goes with the sequence that is open. -/
def originAt (block? : Option Nat) (origin position : Nat) (pending : Option Pending) : Nat :=
  match block? with
  | none => origin
  | some size => if position % size = 0 then (pending.map (·.position)).getD position else origin

/-- Whether a block that ends in byte `b` holds back the sequence that `b` does not
continue: the two bytes are the beginning of a surrogate. -/
def Pending.isHeldBack (p : Pending) (b : Nat) : Bool :=
  p.first == 0xED && p.taken == 1 && 0xA0 ≤ b && b ≤ 0xBF

/-- Whether a block ends before `position`, where some bytes are left or none. -/
def endsBlock (block? : Option Nat) (position : Nat) (left : List UInt8) : Bool :=
  match block? with
  | none => false
  | some size => left.isEmpty || position % size == 0

/-- The first malformed sequence of the bytes from a position on, where `pending` is
the sequence that is open there.  The end of bytes that come in blocks is found out by
one more block, an empty one. -/
def findMalformed (block? : Option Nat) (origin position : Nat) (pending : Option Pending) :
    List UInt8 → Option Malformed
  | [] => pending.map fun p => p.malformed (if block?.isSome then p.position else origin) .cutShort
  | byte :: rest =>
    let b := byte.toNat
    let origin := originAt block? origin position pending
    match pending with
    | some p =>
      if p.least ≤ b ∧ b ≤ p.greatest then findMalformed block? origin (position + 1) p.next? rest
      else if endsBlock block? (position + 1) rest && p.isHeldBack b then
        some (p.malformed p.position .continuation)
      else some (p.malformed origin .continuation)
    | none =>
      if b < 0x80 then findMalformed block? origin (position + 1) none rest
      else
        match Pending.open? position b with
        | some p => findMalformed block? origin (position + 1) (some p) rest
        | none => some ⟨position - origin, b, 1, .start⟩

/-- The text that the bytes encode, or the first malformed sequence.  The bytes come in
blocks of the given size, or all at once. -/
def decode (block? : Option Nat) (bytes : ByteArray) : Except Malformed String :=
  match String.fromUTF8? bytes with
  | some s => .ok s
  | none => .error ((findMalformed block? 0 0 none bytes.toList).getD default)

/-- What is wrong, in words. -/
def Defect.reason : Defect → String
  | .start => "invalid start byte"
  | .continuation => "invalid continuation byte"
  | .cutShort => "unexpected end of data"

/-- The sequence and its defect, in words.  A sequence of one byte is named by the
byte, a longer one by its first and last positions. -/
def Malformed.message (m : Malformed) : String :=
  let subject :=
    if m.width = 1 then
      "byte 0x" ++ String.ofList (hex 2 m.first) ++ " in position " ++ toString m.position
    else
      "bytes in position " ++ toString m.position ++ "-" ++ toString (m.position + m.width - 1)
  "'utf-8' codec can't decode " ++ subject ++ ": " ++ m.defect.reason

end Advent.Text
