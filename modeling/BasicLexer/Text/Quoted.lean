/-!
# Text — the quoted form

A text in a token listing stands between double quotes with everything
that would not show, or would end the quotes, escaped. The form is one
line whatever the text holds: the newline is among the escaped
characters.
-/

namespace BasicLexer

namespace Quoted

/-- The characters written by code point: the controls, the
non-breaking space and the soft hyphen. -/
def isHidden (c : Char) : Bool :=
  c.toNat < 0x20 || (0x7f ≤ c.toNat && c.toNat ≤ 0xa0) || c.toNat = 0xad

/-- A code point in lower-case base sixteen without leading zeros. -/
def codePoint (c : Char) : List Char := Nat.toDigits 16 c.toNat

/-- One character of a quoted text. The quote, the backslash and four
controls have a short escape, the other hidden characters are written
`\u` and their code point in braces, and the rest stand for
themselves. -/
def escape (c : Char) : List Char :=
  if c = '"' then ['\\', '"']
  else if c = '\\' then ['\\', '\\']
  else if c = '\n' then ['\\', 'n']
  else if c = '\r' then ['\\', 'r']
  else if c = '\t' then ['\\', 't']
  else if c = '\x00' then ['\\', '0']
  else if isHidden c then '\\' :: 'u' :: '\x7b' :: (codePoint c ++ ['\x7d'])
  else [c]

/-- The quoted form of a text, quotes included. -/
def ofText (s : String) : String :=
  String.ofList ('"' :: (s.toList.flatMap escape ++ ['"']))

end Quoted

end BasicLexer
