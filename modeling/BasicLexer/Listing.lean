import BasicLexer.Scanner.Lines
import BasicLexer.Scanner.Pass
import BasicLexer.Scanner.Tokens

/-!
# Listings — the tokens of a program and of all it includes

A listing is every token of a program, with the tokens of an include file
where the program asks for it. The statement that asks leaves no token,
and of a remark only its keyword is kept: its text is not scanned.

How many lines a listing takes is not plain from the program, for files
include files. It is bounded all the same, since a file is opened once for
a name and names come out of finitely many lines; that bound is the
allowance a listing is made with.
-/

namespace BasicLexer

namespace Listing

/-- The tokens of the line from the one given on, through the end of the
line. The tokens before it are held in reverse. -/
def lineFrom (tokens : List Token) (token : Token) (s : Scanner) :
    EStateM.Result (Failure Diagnostic) Scanner (List Token) :=
  if _hend : token.kind = .endOfLine then .ok (token :: tokens).reverse s
  else
    match _hrun : Scan.getToken s with
    | .ok next s' => lineFrom (token :: tokens) next s'
    | .error failure s' => .error failure s'
  termination_by s.supply + (if token.kind = .endOfLine then 0 else 1)
  decreasing_by
    rcases Scan.supply_getToken _hrun with hlt | ⟨hkind, hle⟩
    · rw [if_neg _hend]
      split <;> omega
    · rw [if_neg _hend, if_pos hkind]
      omega

/-- The tokens of a line that begins with the token given. -/
def line (first : Token) : Scan (List Token) := lineFrom [] first

/-- Open the include file that the rest of the line asks for: its name
in quotes, and nothing after it. A file that cannot be found is an
error. -/
def openInclude : Scan Unit := do
  let name ← Scan.fetchAndRequire .string
  let _ ← Scan.fetchAndRequire .endOfLine
  match ← Scan.pushInclude name.text with
  | .notFound => Scan.fail (.includeNotFound name.text)
  | _ => return ()

/-- The end of a line whose text is passed over. -/
def endOfText : Scan Token := fun s =>
  .ok { kind := .endOfLine, offset := s.head.lineLength } s

/-- The tokens that the line just fetched leaves in a listing. -/
def statement : Scan (List Token) := do
  let first ← Scan.getToken
  if first.isKeyword .INCLUDE then
    openInclude
    return []
  else if first.isKeyword .REM then
    return [first, ← endOfText]
  else line first

/-- The listing from the next line on, made of at most the number of
lines given; nothing if more lines come. The tokens before it are held
in reverse. -/
def listFrom (tokens : List Token) : Nat → Scan (Option (List Token))
  | 0 => return none
  | lines + 1 => do
    if ← Scan.getLine then
      let these ← statement
      listFrom (these.reverseAux tokens) lines
    else return some (({ kind := .endOfFile, offset := 0 } :: tokens).reverse)

/-- How many lines a listing may take, the last fetch that finds none
included. The lines of the files open are among their bytes. Any other
file is opened for a name that some line asks for, and a line of a file
asks for at most two, one for each way a comment can stand at its
start. -/
def allowance (s : Scanner) : Nat :=
  s.stack.left + (s.stack.left + 2 * s.resolver.volume) * s.resolver.volume + 1

/-- The listing from the next line on. -/
def list : Scan (List Token) := fun s =>
  match listFrom [] (allowance s) s with
  | .ok tokens s' => .ok (tokens.getD []) s'
  | .error failure s' => .error failure s'

/-- The listing of a program, made in a pass of its own. -/
def make : Scan (List Token) := Scan.runPass list

/-- A listing as text, a token a line. -/
def render (tokens : List Token) : String :=
  String.join (tokens.map fun t => t.display ++ "\n")

end Listing

end BasicLexer
