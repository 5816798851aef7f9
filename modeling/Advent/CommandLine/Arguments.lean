/-
Command-line arguments.

An argument is an option or a value.  Options are `-h`, `-v`, their long forms and
every beginning of a long form that belongs to one form only; one-letter options may
be written together.  Negative numbers, texts with a space, a single dash, and
everything after the first double dash are values.  Options that begin well and go on
badly are refused on the spot, and nothing that they ask for is done.

Values that stand together, with no option between them, are read together.  The
first such group holds the day and all its arguments, so a value after a later option
is left over, and what is left over is refused in the end.
-/
import Advent.Numeral

namespace Advent.CommandLine

/-- What an option asks for. -/
inductive Flag where
  | help
  | verbose
  deriving DecidableEq, Repr

/-- The option of one letter. -/
def Flag.ofLetter? : Char → Option Flag
  | 'h' => some .help
  | 'v' => some .verbose
  | _ => none

/-- The long form of an option, without its dashes. -/
def Flag.longName : Flag → List Char
  | .help => "help".toList
  | .verbose => "verbose".toList

/-- An argument by its form. -/
inductive Token where
  /-- A value. -/
  | value (text : String)
  /-- The first double dash. -/
  | separator
  /-- Options that are written together. -/
  | options (flags : List Flag)
  /-- An unknown option, which is left over. -/
  | unknown
  /-- Options that are refused once they are reached. -/
  | refused
  /-- A beginning of several long forms. -/
  | ambiguous
  deriving DecidableEq, Repr

/-! ### Forms -/

/-- The options of a text that begins with the letter of `flag`.  An equals sign may
separate this letter from the others, and then there must be others. -/
def readLetters (flag : Flag) : List Char → Token
  | ['='] => .refused
  | '=' :: letters | letters =>
    match letters.mapM Flag.ofLetter? with
    | some flags => .options (flag :: flags)
    | none => .refused

/-- Whether a character is a decimal digit of any script. -/
def isDigit (c : Char) : Bool := (Text.decimalValue? c).isSome

/-- Whether the text after a dash makes a negative number: digits, or digits after a
point with or without digits before it.  One line feed may follow. -/
def isNumber (s : List Char) : Bool :=
  let s := if s.getLast? = some '\n' then s.dropLast else s
  match s.dropWhile isDigit with
  | [] => !s.isEmpty
  | '.' :: fraction => !fraction.isEmpty && fraction.all isDigit
  | _ => false

/-- The form of a text that is no known option. -/
def readOther (text : String) : Token :=
  if text.toList.contains ' ' then .value text else .unknown

/-- The form of a text after two dashes. -/
def readLong (text : String) (name : List Char) : Token :=
  let stem := name.takeWhile (· ≠ '=')
  match [Flag.help, .verbose].filter fun flag => stem.isPrefixOf flag.longName with
  | [] => readOther text
  | [flag] => if stem = name then .options [flag] else .refused
  | _ => .ambiguous

/-- The form of an argument before the first double dash. -/
def readToken (text : String) : Token :=
  match text.toList with
  | '-' :: '-' :: name => readLong text name
  | '-' :: c :: rest =>
    match Flag.ofLetter? c with
    | some flag => readLetters flag rest
    | none => if isNumber (c :: rest) then .value text else readOther text
  | _ => .value text

/-- The forms of the arguments. -/
def readTokens : List String → List Token
  | [] => []
  | text :: rest =>
    if text = "--" then .separator :: rest.map .value else readToken text :: readTokens rest

/-! ### Meaning -/

/-- What the arguments ask for. -/
structure Invocation where
  verbose : Bool
  day : Int
  args : List String
  deriving DecidableEq, Repr

/-- What has been read so far. -/
structure Reading where
  verbose : Bool := false
  values? : Option (Int × List String) := none
  leftOver : Bool := false

/-- The exit code when arguments are refused. -/
def refusal : Nat := 2

/-- The text of a value or of the double dash. -/
def Token.text : Token → String
  | .value text => text
  | _ => "--"

/-- The text of the day and the arguments after it, in a group of values.  A double
dash next to the day is dropped, and so is the first one among the arguments. -/
def splitGroup : List Token → Option (String × List String)
  | .separator :: .value day :: rest | .value day :: .separator :: rest | .value day :: rest =>
    some (day, (rest.map Token.text).erase "--")
  | _ => none

namespace Reading

/-- Read a group of values. -/
def addGroup (r : Reading) (group : List Token) : Except Nat Reading :=
  if group.isEmpty then .ok r
  else if r.values?.isSome then .ok { r with leftOver := true }
  else
    match splitGroup group with
    | none => .ok { r with leftOver := true }
    | some (day, args) =>
      match Numeral.read day with
      | .ok n => .ok { r with values? := some (n, args) }
      | .error _ => .error refusal

/-- Obey options in order.  Help ends everything. -/
def addFlags (r : Reading) : List Flag → Except Nat Reading
  | [] => .ok r
  | .help :: _ => .error 0
  | .verbose :: rest => { r with verbose := true }.addFlags rest

/-- Read tokens, where `group` are the values since the last option, the latest
first. -/
def addTokens (r : Reading) (group : List Token) : List Token → Except Nat Reading
  | [] => r.addGroup group.reverse
  | .options flags :: rest => do
    let r ← r.addGroup group.reverse
    let r ← r.addFlags flags
    r.addTokens [] rest
  | .unknown :: rest => do
    let r ← r.addGroup group.reverse
    { r with leftOver := true }.addTokens [] rest
  | .refused :: _ => do
    let _ ← r.addGroup group.reverse
    .error refusal
  | .ambiguous :: _ => .error refusal
  | token :: rest => r.addTokens (token :: group) rest

end Reading

/-- What the arguments ask for, or the code to exit with. -/
def readArguments (argv : List String) : Except Nat Invocation :=
  let tokens := readTokens argv
  if tokens.contains .ambiguous then .error refusal
  else do
    let r ← ({} : Reading).addTokens [] tokens
    match r.values?, r.leftOver with
    | some (day, args), false => return ⟨r.verbose, day, args⟩
    | _, _ => .error refusal

end Advent.CommandLine
