import BasicLexer.Lexeme.Numeral
import BasicLexer.Lexeme.Quotation
import BasicLexer.Lexeme.Word

/-!
# Lexemes — the token at the head

The first byte that is neither blank nor hidden says what the token at
the head is. Every token but that of the end of the line takes at least
one byte off what is ahead, so a line is scanned in finitely many tokens.
-/

namespace BasicLexer

namespace Lexeme

/-- The operator that a byte and the byte after it make. -/
def operator? (b c : Byte) : Option Operator :=
  if b = Byte.less then
    if c = Byte.equal then some .lessEqual
    else if c = Byte.greater then some .notEqual
    else if c = Byte.less then some .shiftLeft
    else none
  else if b = Byte.greater then
    if c = Byte.equal then some .greaterEqual
    else if c = Byte.greater then some .shiftRight
    else none
  else none

/-- The token of a byte that may begin an operator. -/
def readOperator (start : Nat) (b : Byte) : Reader Token := do
  match ← Reader.nextIf (operator? b) with
  | some operator => return { kind := .operator operator, offset := start }
  | none => return { kind := .character b, offset := start }

/-- The base marked by a byte that was read and the byte after it: only
a zero may be the first half of a marker. -/
def readMarker (b : Byte) : Reader (Option Radix) :=
  if b = Byte.zero then Reader.nextIf Radix.ofMarker else return none

/-- The token of a number that begins with a byte that was read. -/
def readNumber (options : Options) (start : Nat) (b : Byte) : Reader Token := do
  let marked ← readMarker b
  let number ← Numeral.read options (marked.getD .decimal) (if marked.isSome then [] else [b])
  return { kind := .number, text := number.1.text, value := number.2, offset := start }

/-- The token that begins with a byte that was read. -/
def readFrom (options : Options) (start : Nat) (b : Byte) : Reader Token := do
  if b = Byte.doubleQuote then
    let contents ← Quotation.readString options
    return { kind := .string, text := contents.text, offset := start }
  else if b = Byte.singleQuote then
    let content ← Quotation.readCharacter
    return { kind := .number, text := Bytes.text [content], value := Int32.ofNat content.toNat,
             offset := start }
  else if b = Byte.less ∨ b = Byte.greater then readOperator start b
  else if b.isDigit then readNumber options start b
  else if b.isWord then Word.readToken options start b
  else return { kind := .character b, offset := start }

/-- Note the column of a token: that of the byte just read, or of the
head where the line has ended. -/
def noteStart (found : Bool) : Reader Nat := fun h =>
  let start := if found then h.column - 1 else h.column
  .ok start { h with tokenStart := start }

/-- The token at the head. At the end of the line it is the token of the
end of the line, and it is so however often it is asked for. -/
def read (options : Options) : Reader Token := do
  let first ← Reader.skipBlanks
  let start ← noteStart first.isSome
  match first with
  | none => return { kind := .endOfLine, offset := start }
  | some b => readFrom options start b

/-! ## Every token takes something -/

theorem keeps_readOperator (start : Nat) (b : Byte) : (readOperator start b).Keeps := by
  refine Reader.Keeps.bind (Reader.Keeps.nextIf _) fun found => ?_
  cases found <;> exact Reader.Keeps.pure _

theorem keeps_readNumber (options : Options) (start : Nat) (b : Byte) :
    (readNumber options start b).Keeps := by
  have hmarker : (readMarker b).Keeps := by
    unfold readMarker
    split
    · exact Reader.Keeps.nextIf _
    · exact Reader.Keeps.pure _
  exact Reader.Keeps.bind hmarker fun marked =>
    Reader.Keeps.bind (Numeral.keeps_read _ _ _) fun number => Reader.Keeps.pure _

theorem keeps_readFrom (options : Options) (start : Nat) (b : Byte) :
    (readFrom options start b).Keeps := by
  unfold readFrom
  split
  · exact Reader.Keeps.bind (Quotation.keeps_readString options) fun _ => Reader.Keeps.pure _
  split
  · exact Reader.Keeps.bind Quotation.keeps_readCharacter fun _ => Reader.Keeps.pure _
  split
  · exact keeps_readOperator start b
  split
  · exact keeps_readNumber options start b
  split
  · exact Word.keeps_readToken options start b
  · exact Reader.Keeps.pure _

/-- A token is either that of the end of the line or off what is
ahead. -/
theorem length_ahead_read {options : Options} {h h' : Head} {t : Token}
    (hrun : read options h = .ok t h') :
    h'.ahead.length < h.ahead.length ∨
      t.kind = .endOfLine ∧ h'.ahead.length ≤ h.ahead.length := by
  have hskip := Reader.length_ahead_skipBlanksFrom h
  simp only [read, Bind.bind, EStateM.bind, Reader.skipBlanks, noteStart] at hrun
  cases hfirst : (Reader.skipBlanksFrom h).1 with
  | none =>
    simp only [hfirst, Pure.pure, EStateM.pure, EStateM.Result.ok.injEq] at hrun
    obtain ⟨rfl, rfl⟩ := hrun
    exact .inr ⟨rfl, by simp only; omega⟩
  | some b =>
    simp only [hfirst, Option.isSome_some, if_true] at hrun hskip
    have := keeps_readFrom _ _ _ _ _ _ hrun
    simp only at this
    exact .inl (by omega)

end Lexeme

end BasicLexer
