import BasicLexer.Line.Reader
import BasicLexer.Options

/-!
# Lexemes — literals in quotes

A string stands between double quotes and a character between single
quotes. Inside either no comment is seen, and a backslash with the byte
after it is one character: a newline, a carriage return or a tab, or the
byte itself.
-/

namespace BasicLexer

namespace Quotation

/-- The byte that a backslash and a byte after it stand for. -/
def unescape (b : Byte) : Byte :=
  if b = Byte.letterN then Byte.newline
  else if b = Byte.letterR then Byte.carriageReturn
  else if b = Byte.letterT then Byte.tab
  else b

/-! ## Strings -/

/-- How the rest of a line reads as the inside of a string. -/
inductive Body where
  /-- The string's contents, and how far its closing quote reaches. -/
  | closed (contents : Bytes) (reach : Nat)
  /-- One character too many, and how far its first byte reaches. -/
  | tooLong (reach : Nat)
  /-- The line ends before the string does. -/
  | unterminated
  deriving DecidableEq, Repr

/-- Read the inside of a string of at most `room` characters. Contents
read so far are held in reverse; `passed` bytes held them. A backslash
that ends the line stands for itself. -/
def bodyFrom (contents : Bytes) (passed room : Nat) : Bytes → Body
  | [] => .unterminated
  | [b] =>
    if b = Byte.doubleQuote then .closed contents.reverse (passed + 1)
    else if room = 0 then .tooLong (passed + 1)
    else .unterminated
  | b :: c :: rest =>
    if b = Byte.doubleQuote then .closed contents.reverse (passed + 1)
    else if room = 0 then .tooLong (passed + 1)
    else if b = Byte.backslash then
      bodyFrom (unescape c :: contents) (passed + 2) (room - 1) rest
    else bodyFrom (b :: contents) (passed + 1) (room - 1) (c :: rest)

/-- The contents of a string whose opening quote was read. -/
def readString (options : Options) : Reader Bytes := fun h =>
  match bodyFrom [] 0 options.maxToken h.ahead with
  | .closed contents reach => .ok contents { h.forward reach with lastRead := .consumed }
  | .tooLong reach =>
    .error (.reported .stringTooLong) { h.forward reach with lastRead := .consumed }
  | .unterminated =>
    .error (.reported .unterminatedString)
      { h.forward h.ahead.length with lastRead := .atEnd }

theorem keeps_readString (options : Options) : (readString options).Keeps := by
  intro h a h' hrun
  unfold readString at hrun
  split at hrun
  · simp only [EStateM.Result.ok.injEq] at hrun
    obtain ⟨-, rfl⟩ := hrun
    simp [Head.forward]
  all_goals simp at hrun

/-! ## Characters -/

/-- The byte a backslash that was read stands for, with the byte after
it. -/
def readEscape : Reader Byte := do
  match ← Reader.read with
  | some b => return unescape b
  | none => return Byte.backslash

/-- The one character between single quotes. -/
def readContent : Reader Byte := do
  match ← Reader.read with
  | none => Reader.fail .expectingClosingQuote
  | some b => if b = Byte.backslash then readEscape else return b

/-- The byte of a character literal whose opening quote was read. -/
def readCharacter : Reader Byte := do
  let content ← readContent
  if (← Reader.read) = some Byte.singleQuote then return content
  else Reader.fail .expectingClosingQuote

theorem keeps_readEscape : readEscape.Keeps := by
  refine Reader.Keeps.bind Reader.Keeps.read fun b => ?_
  cases b <;> exact Reader.Keeps.pure _

theorem keeps_readContent : readContent.Keeps := by
  refine Reader.Keeps.bind Reader.Keeps.read fun b => ?_
  cases b with
  | none => exact Reader.Keeps.fail _
  | some b =>
    simp only
    split
    · exact keeps_readEscape
    · exact Reader.Keeps.pure _

theorem keeps_readCharacter : readCharacter.Keeps := by
  refine Reader.Keeps.bind keeps_readContent fun content => ?_
  refine Reader.Keeps.bind Reader.Keeps.read fun b => ?_
  split
  · exact Reader.Keeps.pure _
  · exact Reader.Keeps.fail _

end Quotation

end BasicLexer
