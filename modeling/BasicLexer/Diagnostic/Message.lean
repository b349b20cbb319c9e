/-!
# Diagnostics — the messages

A message is a code and a template. The holes of a template are numbers
in braces; they are filled argument by argument, so a hole that an
argument brings along is filled by a later argument, and one that no
argument has the number of stays as it is.
-/

namespace BasicLexer

/-- A kind of diagnostic: its code and the template of its text. -/
structure Message where
  code : Nat
  template : String
  deriving DecidableEq, Repr

namespace Message

/-! ## Errors of a program's text -/

/-- A word has more bytes than the limit admits. -/
def identifierTooLong : Message := ⟨1001, "Identifier too long"⟩

/-- A string literal has more characters than the limit admits. -/
def stringTooLong : Message := ⟨1002, "String too long"⟩

/-- A line ends inside a string literal. -/
def unterminatedString : Message := ⟨1003, "unterminated string"⟩

/-- A character literal is not one character in single quotes. -/
def expectingClosingQuote : Message := ⟨1004, "Expecting a closing single quote"⟩

/-- A token of one kind stands where another is required. -/
def expectingToken : Message := ⟨1005, "Expecting '\x7b0\x7d', found '\x7b1\x7d'"⟩

/-- A number does not fit the machine word and is to be refused. -/
def numberOutOfRange : Message := ⟨1006, "number literal out of range: \x7b0\x7d"⟩

/-! ## Errors of the input -/

/-- A source failed while it was read. -/
def readError : Message := ⟨1101, "error reading \x7b0\x7d: \x7b1\x7d"⟩

/-- An include file is nowhere to be found. -/
def includeNotFound : Message := ⟨1102, "include file not found: \x7b0\x7d"⟩

/-- Every message with the name it goes by. -/
def table : List (String × Message) :=
  [("IDENTIFIER_TOO_LONG", identifierTooLong),
   ("STRING_TOO_LONG", stringTooLong),
   ("UNTERMINATED_STRING", unterminatedString),
   ("EXPECTING_CLOSING_QUOTE", expectingClosingQuote),
   ("EXPECTING_TOKEN", expectingToken),
   ("NUMBER_OUT_OF_RANGE", numberOutOfRange),
   ("READ_ERROR", readError),
   ("INCLUDE_NOT_FOUND", includeNotFound)]

/-- The message that goes by a name. -/
def ofName? (name : String) : Option Message := table.lookup name

/-! ## Filling a template -/

/-- The hole with a number, as templates write it. -/
def hole (i : Nat) : List Char := '\x7b' :: (Nat.toDigits 10 i ++ ['\x7d'])

/-- A text with every occurrence of a pattern replaced, from left to
right and without overlap; the count is of the characters of an
occurrence still to be passed over. -/
def replaceFrom (pattern replacement : List Char) : Nat → List Char → List Char
  | _, [] => []
  | n + 1, _ :: rest => replaceFrom pattern replacement n rest
  | 0, c :: rest =>
    if pattern.isPrefixOf (c :: rest) then
      replacement ++ replaceFrom pattern replacement (pattern.length - 1) rest
    else c :: replaceFrom pattern replacement 0 rest

/-- A text with the holes numbered from `i` on filled by arguments, one
argument after the other. -/
def fillFrom : Nat → List String → List Char → List Char
  | _, [], text => text
  | i, argument :: rest, text =>
    fillFrom (i + 1) rest (replaceFrom (hole i) argument.toList 0 text)

/-- A template with its holes filled. -/
def format (template : String) (arguments : List String) : String :=
  String.ofList (fillFrom 0 arguments template.toList)

end Message

end BasicLexer
