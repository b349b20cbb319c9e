import BasicLexer.Keyword
import BasicLexer.Text.Byte

/-!
# Tokens — their kinds

A kind says what a token is; the name of a kind is how listings and
diagnostics speak of it. Names tell kinds apart, and `ofName?` reads
them back.
-/

namespace BasicLexer

/-- The operators of two characters. -/
inductive Operator where
  | lessEqual | notEqual | greaterEqual | shiftLeft | shiftRight
  deriving DecidableEq, Repr

namespace Operator

/-- The operators of two characters there are. -/
def table : List Operator := [lessEqual, notEqual, greaterEqual, shiftLeft, shiftRight]

/-- An operator as programs write it. -/
def spelling : Operator → String
  | lessEqual => "<="
  | notEqual => "<>"
  | greaterEqual => ">="
  | shiftLeft => "<<"
  | shiftRight => ">>"

end Operator

/-- What a token is. Characters with no kind of their own are returned
as they are. -/
inductive Kind where
  | keyword (k : Keyword)
  | compound (c : Compound)
  | operator (o : Operator)
  | identifier
  | number
  | string
  | endOfLine
  | endOfFile
  | character (b : Byte)
  deriving DecidableEq, Repr

namespace Kind

/-- The name of a kind. -/
def name : Kind → String
  | keyword k => k.name
  | compound c => c.name
  | operator o => o.spelling
  | identifier => "<IDENTIFIER>"
  | number => "<NUMBER>"
  | string => "<STRING>"
  | endOfLine => "<EOL>"
  | endOfFile => "<EOF>"
  | character b => String.ofList ['\'', b.toChar, '\'']

/-- The kinds that are not single characters. -/
def named : List Kind :=
  Keyword.table.map keyword ++ Compound.table.map compound ++ Operator.table.map operator
    ++ [identifier, number, string, endOfLine, endOfFile]

/-- The kind that a name names, if it names one. -/
def ofName? (s : String) : Option Kind :=
  match named.find? fun k => k.name = s with
  | some k => some k
  | none =>
    match s.toList with
    | ['\'', c, '\''] => if c.toNat < 256 then some (character (UInt8.ofNat c.toNat)) else none
    | _ => none

end Kind

end BasicLexer
