import BasicLexer.Token.Kind
import BasicLexer.Text.Quoted

/-!
# Tokens

A token is what the scanner makes of a run of program text: its kind,
the text that goes with it, the value of a number, and the column it
begins at. A listing shows a token as one line of text.
-/

namespace BasicLexer

/-- A token of a program. The text of a word is its spelling, of a
string its decoded contents, of a number its digits; the value is that
of a number and zero for any other kind; the offset is the column in the
line. -/
structure Token where
  kind : Kind
  text : String := ""
  value : Int32 := 0
  offset : Nat
  deriving DecidableEq, Repr

namespace Token

/-- Whether a token is the given keyword. -/
def isKeyword (t : Token) (k : Keyword) : Bool := t.kind = .keyword k

/-- A token as a listing shows it: identifiers with their text, numbers
with their value, strings with their quoted contents, other tokens by
the name of their kind. -/
def display (t : Token) : String :=
  match t.kind with
  | .identifier => t.kind.name ++ "(" ++ t.text ++ ")"
  | .number => t.kind.name ++ "(" ++ toString t.value.toInt ++ ")"
  | .string => t.kind.name ++ "(" ++ Quoted.ofText t.text ++ ")"
  | kind => kind.name

end Token

end BasicLexer
