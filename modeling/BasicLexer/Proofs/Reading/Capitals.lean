import BasicLexer.Lexeme

/-!
# Reading — capital letters

The capital of a byte is that of a small letter, and of any other byte the
byte itself (`Byte.upper`). Nothing that is asked of a byte outside quotes
tells it from its capital: not whether it is a blank or a word byte, not
what it counts for as a digit of any base, and not which base or keyword it
helps to spell. All of these are traits of a byte (`Byte.traits`), and that a
byte has those of its capital is a question of 256 bytes.
-/

namespace BasicLexer

namespace Byte

/-- Whether a byte is a letter. -/
def isLetter (b : Byte) : Bool := b.isCapital || b.isSmall

/-- The capital of a byte. -/
def upper (b : Byte) : Byte := if b.isSmall then b - 32 else b

/-- A property of all bytes is one of the numbers they are. -/
theorem forall_of_lt {p : Byte → Prop} (h : ∀ n < 256, p (UInt8.ofNat n)) (b : Byte) : p b := by
  have hb := h b.toNat b.toNat_lt
  rwa [UInt8.ofNat_toNat] at hb

/-- What is asked of a byte outside quotes, but for which byte it is. -/
structure Traits where
  isLetter : Bool
  isWord : Bool
  isBlank : Bool
  isDigit : Bool
  isBinaryDigit : Bool
  isHexDigit : Bool
  digitValue : Nat
  marker : Option Radix
  deriving DecidableEq

/-- The traits of a byte. -/
def traits (b : Byte) : Traits where
  isLetter := b.isLetter
  isWord := b.isWord
  isBlank := b.isBlank
  isDigit := b.isDigit
  isBinaryDigit := b.isBinaryDigit
  isHexDigit := b.isHexDigit
  digitValue := b.digitValue
  marker := Radix.ofMarker b

/-- **No trait tells a byte from its capital.** -/
theorem traits_upper : ∀ b : Byte, b.upper.traits = b.traits := forall_of_lt (by decide +kernel)

theorem isLetter_upper (b : Byte) : b.upper.isLetter = b.isLetter :=
  congrArg Traits.isLetter (traits_upper b)

theorem isWord_upper (b : Byte) : b.upper.isWord = b.isWord :=
  congrArg Traits.isWord (traits_upper b)

theorem isBlank_upper (b : Byte) : b.upper.isBlank = b.isBlank :=
  congrArg Traits.isBlank (traits_upper b)

theorem isDigit_upper (b : Byte) : b.upper.isDigit = b.isDigit :=
  congrArg Traits.isDigit (traits_upper b)

theorem isRadixDigit_upper (radix : Radix) (b : Byte) :
    radix.isDigit b.upper = radix.isDigit b := by
  cases radix with
  | binary => exact congrArg Traits.isBinaryDigit (traits_upper b)
  | decimal => exact isDigit_upper b
  | hex => exact congrArg Traits.isHexDigit (traits_upper b)

theorem digitValue_upper (b : Byte) : b.upper.digitValue = b.digitValue :=
  congrArg Traits.digitValue (traits_upper b)

theorem ofMarker_upper (b : Byte) : Radix.ofMarker b.upper = Radix.ofMarker b :=
  congrArg Traits.marker (traits_upper b)

theorem toChar_upper : ∀ b : Byte, b.upper.toChar = b.toChar.toUpper :=
  forall_of_lt (by decide +kernel)

theorem isLetter_of_isWord_eq_false (b : Byte) (hb : b.isWord = false) : b.isLetter = false := by
  simp only [isWord, Bool.or_eq_false_iff] at hb
  simp only [isLetter, hb, Bool.or_false]

/-- A byte that is no letter is its own capital. -/
theorem upper_of_not_letter {b : Byte} (hb : b.isLetter = false) : b.upper = b := by
  rw [isLetter, Bool.or_eq_false_iff] at hb
  rw [upper, hb.2, if_neg Bool.false_ne_true]

theorem upper_upper : ∀ b : Byte, b.upper.upper = b.upper := forall_of_lt (by decide +kernel)

section SameCapital

variable {b c : Byte}

/-- Such a byte has its capital to itself. -/
theorem eq_iff_of_upper_eq (hsame : c.upper = b.upper) {d : Byte} (hd : d.isLetter = false) :
    c = d ↔ b = d := by
  have halone {b c : Byte} (hsame : c.upper = b.upper) (hb : b.isLetter = false) : c = b := by
    have hc : c.isLetter = false := by rw [← isLetter_upper, hsame, isLetter_upper, hb]
    rw [← upper_of_not_letter hb, ← hsame, upper_of_not_letter hc]
  constructor
  · rintro rfl
    exact halone hsame.symm hd
  · rintro rfl
    exact halone hsame hd

theorem upper_eq_iff {d : Byte} (hd : d.isLetter = false) : b.upper = d ↔ b = d :=
  eq_iff_of_upper_eq (upper_upper b) hd

theorem isWord_eq_of_upper_eq (hsame : c.upper = b.upper) : c.isWord = b.isWord := by
  rw [← isWord_upper, hsame, isWord_upper]

theorem isDigit_eq_of_upper_eq (hsame : c.upper = b.upper) : c.isDigit = b.isDigit := by
  rw [← isDigit_upper, hsame, isDigit_upper]

theorem isRadixDigit_eq_of_upper_eq (radix : Radix) (hsame : c.upper = b.upper) :
    radix.isDigit c = radix.isDigit b := by
  rw [← isRadixDigit_upper, hsame, isRadixDigit_upper]

theorem ofMarker_eq_of_upper_eq (hsame : c.upper = b.upper) :
    Radix.ofMarker c = Radix.ofMarker b := by
  rw [← ofMarker_upper, hsame, ofMarker_upper]

/-- A byte outside words is the same in either case. -/
theorem eq_of_upper_eq (hsame : c.upper = b.upper) (hb : b.isWord = false) : c = b :=
  (eq_iff_of_upper_eq hsame (isLetter_of_isWord_eq_false b hb)).mpr rfl

end SameCapital

end Byte

namespace Bytes

/-- A text in capital letters. -/
def upper (bytes : Bytes) : Bytes := bytes.map Byte.upper

@[simp] theorem upper_nil : upper [] = [] := rfl

@[simp] theorem upper_cons (b : Byte) (rest : Bytes) :
    upper (b :: rest) = b.upper :: upper rest := rfl

theorem text_upper (bytes : Bytes) : bytes.upper.text = bytes.text.toUpper := by
  apply String.toList_injective
  rw [String.toUpper, String.toList_map, toList_text, toList_text, upper, List.map_map,
    List.map_map]
  exact List.map_congr_left fun b _ => Byte.toChar_upper b

end Bytes

/-- A keyword is told by the capitals of a word. -/
theorem Word.keyword?_eq_of_upper_eq {word word' : Bytes} (hsame : word'.upper = word.upper) :
    Word.keyword? word' = Word.keyword? word := by
  have hcapitals (word : Bytes) : word.text.toList.map Char.toUpper = word.upper.text.toList := by
    rw [Bytes.text_upper, String.toUpper, String.toList_map]
  rw [Word.keyword?, Word.keyword?, Keyword.ofWord?, Keyword.ofWord?, hcapitals, hcapitals, hsame]

/-- The value of a number is told by the capitals of its digits. -/
theorem Numeral.accumulate_eq_of_upper_eq (radix : Radix) {digits digits' : Bytes}
    (hsame : digits'.upper = digits.upper) :
    Numeral.accumulate radix digits' = Numeral.accumulate radix digits := by
  have hpush (acc : Numeral.Accumulated) (b : Byte) :
      acc.push radix b.upper = acc.push radix b := by
    rw [Numeral.Accumulated.push, Numeral.Accumulated.push, Byte.digitValue_upper]
  have hcapitals (digits : Bytes) :
      Numeral.accumulate radix digits.upper = Numeral.accumulate radix digits := by
    rw [Numeral.accumulate, Numeral.accumulate, Bytes.upper, List.foldl_map]
    exact congrArg (fun push => List.foldl push {} digits)
      (funext fun acc => funext fun b => hpush acc b)
  rw [← hcapitals, hsame, hcapitals]

end BasicLexer
