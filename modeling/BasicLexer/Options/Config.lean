import BasicLexer.Input.Disk
import BasicLexer.Json.Value
import BasicLexer.Options

/-!
# Options — configuration files

Options are kept as a JSON text: an object with a member for each option,
or an array of their values in order. What is left out has its default,
members of other names say nothing, and no option may be given twice.
-/

namespace BasicLexer

namespace Options

/-- A limit as it is given: a word of 64 bits. -/
abbrev Limit := Fin UInt64.size

/-- What a configuration says of each option, if it says anything. -/
structure Given where
  maxToken : Option Limit := none
  maxLine : Option Limit := none
  includePaths : Option (List String) := none
  literalOverflow : Option Overflow := none
  deriving DecidableEq, Repr

/-- The options given, the others at their defaults. -/
def ofGiven (given : Given) : Options where
  maxToken := given.maxToken.getD 32
  maxLine := given.maxLine.getD 128
  includePaths := given.includePaths.getD []
  literalOverflow := given.literalOverflow.getD .wrap
  maxToken_lt := Fin.isLt _
  maxLine_lt := Fin.isLt _

/-! ## The value of an option -/

/-- The number that digits write in base ten. -/
def natural (digits : List Char) : Nat :=
  digits.foldl (fun n c => n * 10 + (c.toNat - 48)) 0

/-- A limit is a number below 2^64 that is written with digits alone. -/
def limit? : Json → Option Limit
  | .number n =>
    if n.negative ∨ n.fraction ≠ [] ∨ n.exponent ≠ [] then none
    else if hlt : natural n.whole < UInt64.size then some ⟨natural n.whole, hlt⟩
    else none
  | _ => none

/-- A directory is a string that is text. -/
def directory? : Json → Option String
  | .string pieces => Json.text? pieces
  | _ => none

/-- Directories are an array of strings. -/
def directories? : Json → Option (List String)
  | .array items => items.mapM directory?
  | _ => none

/-- A policy is its name, or an object whose one member has that name
and the value null. -/
def overflow? : Json → Option Overflow
  | .string pieces => (Json.text? pieces).bind Overflow.ofName?
  | .object [(key, .null)] => (Json.text? key).bind Overflow.ofName?
  | _ => none

/-! ## Configurations -/

/-- What is given when nothing was given before: a second time is a
fault. -/
def once {α : Type} (before : Option α) (value : Option α) : Option (Option α) :=
  match before with
  | none => value.map some
  | some _ => none

/-- What is given with one member more. -/
def addMember (given : Given) (member : List Json.Piece × Json) : Option Given := do
  let key ← Json.text? member.1
  if key = "maxToken" then
    return { given with maxToken := ← once given.maxToken (limit? member.2) }
  else if key = "maxLine" then
    return { given with maxLine := ← once given.maxLine (limit? member.2) }
  else if key = "includePaths" then
    return { given with includePaths := ← once given.includePaths (directories? member.2) }
  else if key = "literalOverflow" then
    return { given with literalOverflow := ← once given.literalOverflow (overflow? member.2) }
  else return given

/-- What the values in an array give, in the order of the options. -/
def ofItems : List Json → Option Given
  | [] => some {}
  | [a] => return { maxToken := ← limit? a }
  | [a, b] => return { maxToken := ← limit? a, maxLine := ← limit? b }
  | [a, b, c] =>
    return { maxToken := ← limit? a, maxLine := ← limit? b, includePaths := ← directories? c }
  | [a, b, c, d] =>
    return { maxToken := ← limit? a, maxLine := ← limit? b, includePaths := ← directories? c,
             literalOverflow := ← overflow? d }
  | _ => none

/-- The options a JSON value writes. -/
def ofJson? : Json → Option Options
  | .object members => (members.foldlM addMember {}).map ofGiven
  | .array items => (ofItems items).map ofGiven
  | _ => none

/-- The options a JSON text writes. -/
def ofText? (text : String) : Option Options := (Json.ofText? text).bind ofJson?

/-! ## Files -/

/-- Why options cannot be had from a file: it cannot be read, or its text
gives none. -/
inductive LoadError where
  | unreadable (path : String) (fault : Fault)
  | invalid (text : String)
  deriving DecidableEq, Repr

/-- The text of a failure to load options. What is wrong with a text that
gives none is the reader's to say, in words that are not settled here. -/
def LoadError.message (explain : String → String) : LoadError → String
  | unreadable path fault => "cannot read config file " ++ path ++ ": " ++ fault.message
  | invalid text => "invalid config: " ++ explain text

/-- The options in a file. -/
def load (disk : Disk) (path : String) : Except LoadError Options :=
  match disk.readText path with
  | .error fault => .error (.unreadable path fault)
  | .ok text =>
    match ofText? text with
    | some options => .ok options
    | none => .error (.invalid text)

end Options

end BasicLexer
