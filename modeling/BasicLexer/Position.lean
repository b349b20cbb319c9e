/-!
# Positions — where a diagnostic points

Scanning works a line at a time, so a place in a program is the line
being scanned, the source it came from, and a column in it.
-/

namespace BasicLexer

/-- A place in a program: the include file it is in (none for the
program itself), the number of the line, counted from one and zero
before any line was read, the text of the line, and the column in it,
counted from zero. -/
structure Position where
  file : Option String := none
  line : Nat
  text : String
  column : Nat
  deriving DecidableEq, Repr

namespace Position

/-- Whether a character ends lines. -/
def endsLine (c : Char) : Bool := c = '\n' || c = '\r'

/-- The text of the line without the characters that end it. -/
def shownText (p : Position) : String :=
  String.ofList (p.text.toList.reverse.dropWhile endsLine).reverse

/-- The source and line of a position, as reports name them. -/
def label (p : Position) : String :=
  match p.file with
  | some file => "file '" ++ file ++ "', line " ++ toString p.line
  | none => "line " ++ toString p.line

/-- The width of the caret line: one more than the column, as a word of 64
bits. The largest word has none after it and comes round to zero. -/
def caretWidth (p : Position) : Nat := (p.column + 1) % UInt64.size

/-- The caret line: a caret at the end of its width, behind blanks. -/
def caret (p : Position) : String :=
  String.ofList (List.replicate (p.caretWidth - 1) ' ' ++ ['^'])

variable {p : Position}

/-- A column that a word comes after has its caret behind it. -/
theorem caretWidth_of_lt (hcolumn : p.column + 1 < UInt64.size) : p.caretWidth = p.column + 1 :=
  Nat.mod_eq_of_lt hcolumn

theorem caret_of_lt (hcolumn : p.column + 1 < UInt64.size) :
    p.caret = String.ofList (List.replicate p.column ' ' ++ ['^']) := by
  rw [caret, caretWidth_of_lt hcolumn, Nat.add_sub_cancel]

end Position

end BasicLexer
