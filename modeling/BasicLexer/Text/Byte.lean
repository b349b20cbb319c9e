/-!
# Text — the bytes of a program

Programs are scanned byte by byte. A byte stands for the character of
the same code point (Latin-1), so every byte string is a text, and the
classes below know the ASCII letters and digits only: a byte above 127
is never part of a word.
-/

namespace BasicLexer

/-- One byte of program text. -/
abbrev Byte := UInt8

/-- A run of program text. -/
abbrev Bytes := List Byte

namespace Byte

/-! ## Bytes with a meaning of their own -/

/-- The newline, which ends every line. -/
abbrev newline : Byte := 10

/-- The carriage return. -/
abbrev carriageReturn : Byte := 13

/-- The horizontal tab. -/
abbrev tab : Byte := 9

/-- The double quote, around string literals. -/
abbrev doubleQuote : Byte := 34

/-- The single quote, around character literals. -/
abbrev singleQuote : Byte := 39

/-- The backslash, which begins an escape inside a literal. -/
abbrev backslash : Byte := 92

/-- The slash, first byte of both comment openers. -/
abbrev slash : Byte := 47

/-- The asterisk, second byte of a block comment's opener. -/
abbrev asterisk : Byte := 42

/-- The underscore, a word byte and a separator between digits. -/
abbrev underscore : Byte := 95

/-- The less-than sign. -/
abbrev less : Byte := 60

/-- The equals sign. -/
abbrev equal : Byte := 61

/-- The greater-than sign. -/
abbrev greater : Byte := 62

/-- The digit zero, which may begin a radix marker. -/
abbrev zero : Byte := 48

/-- The small letter `n`, the escape for a newline. -/
abbrev letterN : Byte := 110

/-- The small letter `r`, the escape for a carriage return. -/
abbrev letterR : Byte := 114

/-- The small letter `t`, the escape for a tab. -/
abbrev letterT : Byte := 116

/-! ## Classes -/

/-- Blanks are the space and the five controls from tab to carriage
return. -/
def isBlank (b : Byte) : Bool := b == 32 || (9 ≤ b && b ≤ 13)

/-- The decimal digits. -/
def isDigit (b : Byte) : Bool := 48 ≤ b && b ≤ 57

/-- The two binary digits. -/
def isBinaryDigit (b : Byte) : Bool := b == 48 || b == 49

/-- The capital letters. -/
def isCapital (b : Byte) : Bool := 65 ≤ b && b ≤ 90

/-- The small letters. -/
def isSmall (b : Byte) : Bool := 97 ≤ b && b ≤ 122

/-- The digits of base sixteen, in either case. -/
def isHexDigit (b : Byte) : Bool :=
  b.isDigit || (65 ≤ b && b ≤ 70) || (97 ≤ b && b ≤ 102)

/-- The bytes of a word: letters, digits and the underscore. A word that
begins with a digit is a number and is told apart before this class is
asked. -/
def isWord (b : Byte) : Bool :=
  b.isCapital || b.isSmall || b.isDigit || b == underscore

/-- What a digit of any base counts for; bytes that are no digit count
for nothing. -/
def digitValue (b : Byte) : Nat :=
  if b.isDigit then b.toNat - 48
  else if b.isCapital then b.toNat - 55
  else if b.isSmall then b.toNat - 87
  else 0

/-- The character a byte stands for. -/
def toChar (b : Byte) : Char := Char.ofNat b.toNat

theorem toNat_toChar (b : Byte) : b.toChar.toNat = b.toNat := by
  have hvalid : b.toNat.isValidChar := .inl (Nat.lt_trans b.toNat_lt (by decide))
  rw [toChar, Char.ofNat, dif_pos hvalid]
  rfl

/-- Two bytes stand for two characters. -/
theorem toChar_inj {b c : Byte} : b.toChar = c.toChar ↔ b = c := by
  refine ⟨fun h => UInt8.toNat_inj.mp ?_, fun h => h ▸ rfl⟩
  rw [← toNat_toChar, ← toNat_toChar, h]

theorem toChar_eq_newline {b : Byte} : b.toChar = '\n' ↔ b = newline := toChar_inj (c := newline)

end Byte

namespace Bytes

/-- The text that bytes stand for, one character a byte. -/
def text (bs : Bytes) : String := String.ofList (bs.map Byte.toChar)

theorem toList_text (bs : Bytes) : bs.text.toList = bs.map Byte.toChar := by
  simp [text]

theorem length_text (bs : Bytes) : bs.text.length = bs.length := by
  simp [text]

end Bytes

end BasicLexer
