import BasicLexer.Json.Value

/-!
# JSON — the grammar

What a JSON text may look like, without a word on how it is read. Every part
of it is said from the other side, as what may be written: a unit by four
digits of base sixteen (`Json.WritesUnit`), a text by characters and escapes
(`Json.WritesText`), a number by its parts (`Json.WritesNumber`), and a value,
which may hold others to any depth, with blanks wherever they are allowed
(`Json.WellFormed`).
-/

namespace BasicLexer

namespace Json

/-! ## Blanks -/

/-- A run of blanks. -/
def Blank (gap : List Char) : Prop := ∀ c ∈ gap, c ∈ [' ', '\t', '\n', '\r']

instance (gap : List Char) : Decidable (Blank gap) :=
  List.decidableBAll (· ∈ [' ', '\t', '\n', '\r']) gap

/-! ## Strings -/

/-- A digit of base sixteen, small or capital. -/
def WritesDigit (d : Nat) (c : Char) : Prop :=
  d < 16 ∧ (c = d.digitChar ∨ c = d.digitChar.toUpper)

instance (d : Nat) (c : Char) : Decidable (WritesDigit d c) :=
  inferInstanceAs (Decidable (d < 16 ∧ (c = d.digitChar ∨ c = d.digitChar.toUpper)))

/-- The four digits of a unit. -/
inductive WritesUnit : Nat → List Char → Prop
  | digits {a b c d : Nat} {a' b' c' d' : Char} (ha : WritesDigit a a') (hb : WritesDigit b b')
      (hc : WritesDigit c c') (hd : WritesDigit d d') :
      WritesUnit (((a * 16 + b) * 16 + c) * 16 + d) [a', b', c', d']

/-- The characters that have a short escape, and what the backslash is
followed by. -/
def shortEscapes : List (Char × Char) :=
  [('"', '"'), ('\\', '\\'), ('/', '/'), ('\x08', 'b'), ('\x0c', 'f'), ('\n', 'n'), ('\r', 'r'),
   ('\t', 't')]

/-- How a piece of a string is written: a character as it is, unless it is a
control, the quote or the backslash; some characters by a short escape; any
unit by its digits. -/
inductive WritesPiece : Piece → List Char → Prop
  | plain {c : Char} (hcontrol : 32 ≤ c.toNat) (hquote : c ≠ '"') (hbackslash : c ≠ '\\') :
      WritesPiece (.char c) [c]
  | short {c e : Char} (hescape : (c, e) ∈ shortEscapes) : WritesPiece (.char c) ['\\', e]
  | unit {n : Nat} {digits : List Char} (hdigits : WritesUnit n digits) :
      WritesPiece (.unit n) ('\\' :: 'u' :: digits)

/-- How the inside of a string is written, piece by piece. -/
inductive WritesPieces : List Piece → List Char → Prop
  | nil : WritesPieces [] []
  | cons {piece : Piece} {pieces : List Piece} {written rest : List Char}
      (hpiece : WritesPiece piece written) (hrest : WritesPieces pieces rest) :
      WritesPieces (piece :: pieces) (written ++ rest)

/-- How a character of a text is written: as a piece, by its unit, or, from
65536 on, by a pair of units. -/
inductive WritesChar : Char → List Char → Prop
  | piece {c : Char} {written : List Char} (hpiece : WritesPiece (.char c) written) :
      WritesChar c written
  | unit {c : Char} {digits : List Char} (hdigits : WritesUnit c.toNat digits) :
      WritesChar c ('\\' :: 'u' :: digits)
  | pair {c : Char} {high low : Nat} {digits digits' : List Char}
      (hchar : c.toNat = 0x10000 + high * 0x400 + low) (hhigh : high < 0x400) (hlow : low < 0x400)
      (hdigits : WritesUnit (0xd800 + high) digits) (hdigits' : WritesUnit (0xdc00 + low) digits') :
      WritesChar c ('\\' :: 'u' :: digits ++ '\\' :: 'u' :: digits')

/-- How a text is written inside quotes. -/
inductive WritesText : List Char → List Char → Prop
  | nil : WritesText [] []
  | cons {c : Char} {text written rest : List Char} (hchar : WritesChar c written)
      (hrest : WritesText text rest) : WritesText (c :: text) (written ++ rest)

/-- A text without controls, quotes and backslashes may be written as it is. -/
theorem WritesText.of_plain {text : List Char}
    (hplain : text.all (fun c => 32 ≤ c.toNat ∧ c ≠ '"' ∧ c ≠ '\\') = true) :
    WritesText text text := by
  induction text with
  | nil => exact .nil
  | cons c text ih =>
    rw [List.all_cons, Bool.and_eq_true, decide_eq_true_eq] at hplain
    obtain ⟨⟨hcontrol, hquote, hbackslash⟩, hrest⟩ := hplain
    exact .cons (.piece (.plain hcontrol hquote hbackslash)) (ih hrest)

theorem WritesText.append {text text' written written' : List Char}
    (htext : WritesText text written) (htext' : WritesText text' written') :
    WritesText (text ++ text') (written ++ written') := by
  induction htext with
  | nil => exact htext'
  | cons hchar _ ih =>
    rw [List.append_assoc]
    exact .cons hchar ih

/-- Something between quotes. -/
def quoted (written : List Char) : List Char := '"' :: (written ++ ['"'])

/-! ## Numbers -/

/-- At least one digit, and nothing else. -/
def Digits (digits : List Char) : Prop := digits ≠ [] ∧ ∀ c ∈ digits, c.isDigit = true

/-- The digits before the point: zero alone, or digits that begin with no
zero. -/
inductive WritesWhole : List Char → Prop
  | zero : WritesWhole ['0']
  | positive {d : Char} {rest : List Char} (hd : d ≠ '0') (hdigits : Digits (d :: rest)) :
      WritesWhole (d :: rest)

/-- The digits after the point, with the point if there are any. -/
inductive WritesFraction : List Char → List Char → Prop
  | none : WritesFraction [] []
  | some {digits : List Char} (hdigits : Digits digits) : WritesFraction digits ('.' :: digits)

/-- The exponent, if there is one, with its sign, if it has one. -/
inductive WritesExponent : Option Char → List Char → List Char → Prop
  | none : WritesExponent none [] []
  | some {e : Char} {sign : Option Char} {digits : List Char} (he : e = 'e' ∨ e = 'E')
      (hsign : ∀ s ∈ sign, s = '+' ∨ s = '-') (hdigits : Digits digits) :
      WritesExponent sign digits (e :: (sign.toList ++ digits))

/-- How a number without its sign is written. -/
def WritesUnsigned (n : Number) (written : List Char) : Prop :=
  ∃ fraction exponent, WritesWhole n.whole ∧ WritesFraction n.fraction fraction ∧
    WritesExponent n.exponentSign n.exponent exponent ∧
    written = n.whole ++ (fraction ++ exponent)

/-- How a number is written. -/
inductive WritesNumber : Number → List Char → Prop
  | unsigned {n : Number} {written : List Char} (hsign : n.negative = false)
      (hn : WritesUnsigned n written) : WritesNumber n written
  | negative {n : Number} {written : List Char} (hsign : n.negative = true)
      (hn : WritesUnsigned n written) : WritesNumber n ('-' :: written)

/-! ## Values -/

/-- An item of an array, and the blanks about it. -/
structure Item where
  before : List Char
  value : List Char
  after : List Char

/-- A member of an object: what is written between the quotes of its name, its
value, and the blanks about both. -/
structure Member where
  before : List Char
  name : List Char
  between : List Char
  behind : List Char
  value : List Char
  after : List Char

namespace Item

def text (item : Item) : List Char := item.before ++ (item.value ++ item.after)

/-- The gaps of an item are blank. -/
structure Spaced (item : Item) : Prop where
  before : Blank item.before
  after : Blank item.after

instance (item : Item) : Decidable item.Spaced :=
  decidable_of_iff (Blank item.before ∧ Blank item.after)
    ⟨fun h => ⟨h.1, h.2⟩, fun h => ⟨h.before, h.after⟩⟩

end Item

namespace Member

def text (m : Member) : List Char :=
  m.before ++ (quoted m.name ++ (m.between ++ ':' :: (m.behind ++ (m.value ++ m.after))))

/-- The gaps of a member are blank. -/
structure Spaced (m : Member) : Prop where
  before : Blank m.before
  between : Blank m.between
  behind : Blank m.behind
  after : Blank m.after

instance (m : Member) : Decidable m.Spaced :=
  decidable_of_iff (Blank m.before ∧ Blank m.between ∧ Blank m.behind ∧ Blank m.after)
    ⟨fun h => ⟨h.1, h.2.1, h.2.2.1, h.2.2.2⟩, fun h => ⟨h.before, h.between, h.behind, h.after⟩⟩

end Member

/-- Parts between two marks, with commas between them. If there are none there
may be blanks. -/
inductive Encloses (left right : Char) : List (List Char) → List Char → Prop
  | empty {gap : List Char} (hgap : Blank gap) :
      Encloses left right [] (left :: (gap ++ [right]))
  | parts {part : List Char} {rest : List (List Char)} :
      Encloses left right (part :: rest) (left :: ([','].intercalate (part :: rest) ++ [right]))

/-- What a JSON value may look like. -/
inductive WellFormed : List Char → Prop
  | null : WellFormed "null".toList
  | true : WellFormed "true".toList
  | false : WellFormed "false".toList
  | number {n : Number} {written : List Char} (hnumber : WritesNumber n written) :
      WellFormed written
  | string {pieces : List Piece} {written : List Char} (hpieces : WritesPieces pieces written) :
      WellFormed (quoted written)
  | array {items : List Item} {written : List Char} (hspaced : ∀ item ∈ items, item.Spaced)
      (hitems : ∀ item ∈ items, WellFormed item.value)
      (hwritten : Encloses '[' ']' (items.map Item.text) written) : WellFormed written
  | object {members : List Member} {written : List Char} (hspaced : ∀ m ∈ members, m.Spaced)
      (hnames : ∀ m ∈ members, ∃ pieces, WritesPieces pieces m.name)
      (hmembers : ∀ m ∈ members, WellFormed m.value)
      (hwritten : Encloses '\x7b' '\x7d' (members.map Member.text) written) : WellFormed written

end Json

end BasicLexer
