/-!
# JSON — lexemes

A JSON text is a run of lexemes with blanks between them: the six marks
of structure, the three names, numbers and strings. Numbers keep the
parts they are written in, and strings the units they are written with,
so that what they mean can be asked where it matters.
-/

namespace BasicLexer

namespace Json

/-- A number as it is written: the sign, the digits before the point,
those after it, and the exponent's sign and digits. A part that is not
written has no digits. -/
structure Number where
  negative : Bool
  whole : List Char
  fraction : List Char
  exponentSign : Option Char
  exponent : List Char
  deriving DecidableEq, Repr

/-- A piece of a string: a character, or a unit of sixteen bits that is
written by its number. -/
inductive Piece where
  | char (c : Char)
  | unit (n : Nat)
  deriving DecidableEq, Repr

/-- A lexeme of a JSON text. -/
inductive Lexeme where
  | openArray | closeArray | openObject | closeObject | colon | comma
  | null | true | false
  | number (n : Number)
  | string (pieces : List Piece)
  deriving DecidableEq, Repr

/-- Blanks are the space, the tab, the newline and the carriage return. -/
def isBlank (c : Char) : Bool := c = ' ' || c = '\t' || c = '\n' || c = '\r'

/-! ## Strings -/

/-- The value of a digit of base sixteen, in either case. -/
def hexValue? (c : Char) : Option Nat :=
  if c.isDigit then some (c.toNat - 48)
  else if 'a' ≤ c ∧ c ≤ 'f' then some (c.toNat - 87)
  else if 'A' ≤ c ∧ c ≤ 'F' then some (c.toNat - 55)
  else none

/-- The unit that four digits of base sixteen write. -/
def unit? (a b c d : Char) : Option Nat := do
  return (((← hexValue? a) * 16 + (← hexValue? b)) * 16 + (← hexValue? c)) * 16 + (← hexValue? d)

/-- The character that a backslash and a character after it write. -/
def escaped? (c : Char) : Option Char :=
  if c = '"' ∨ c = '\\' ∨ c = '/' then some c
  else if c = 'b' then some '\x08'
  else if c = 'f' then some '\x0c'
  else if c = 'n' then some '\n'
  else if c = 'r' then some '\r'
  else if c = 't' then some '\t'
  else none

/-- The pieces of a string whose opening quote was read, after the pieces
given in reverse, and what follows its closing quote. Controls are to be
escaped. -/
def stringFrom (pieces : List Piece) : List Char → Option (List Piece × List Char)
  | '"' :: rest => some (pieces.reverse, rest)
  | '\\' :: 'u' :: a :: b :: c :: d :: rest => do
    stringFrom (.unit (← unit? a b c d) :: pieces) rest
  | '\\' :: c :: rest => do stringFrom (.char (← escaped? c) :: pieces) rest
  | c :: rest => if c.toNat < 32 then none else stringFrom (.char c :: pieces) rest
  | [] => none

/-- Whether a unit is the first half of a pair. -/
def isHigh (n : Nat) : Bool := 0xd800 ≤ n && n ≤ 0xdbff

/-- Whether a unit is the second half of a pair. -/
def isLow (n : Nat) : Bool := 0xdc00 ≤ n && n ≤ 0xdfff

/-- The characters that pieces write. A unit is a character of its own or
half of a pair; half a pair alone is no text. -/
def decode? : List Piece → Option (List Char)
  | [] => some []
  | .char c :: rest => (decode? rest).map (c :: ·)
  | .unit n :: rest =>
    if isHigh n then
      match rest with
      | .unit m :: after =>
        if isLow m then
          (decode? after).map (Char.ofNat (0x10000 + (n - 0xd800) * 0x400 + (m - 0xdc00)) :: ·)
        else none
      | _ => none
    else if isLow n then none
    else (decode? rest).map (Char.ofNat n :: ·)

/-- The text that pieces write. -/
def text? (pieces : List Piece) : Option String := (decode? pieces).map String.ofList

/-! ## Numbers -/

/-- The digits at the front, and what follows them. -/
def digits (s : List Char) : List Char × List Char :=
  (s.takeWhile Char.isDigit, s.dropWhile Char.isDigit)

/-- The digits before the point: a zero, or digits that begin with none. -/
def whole? : List Char → Option (List Char × List Char)
  | '0' :: rest => some (['0'], rest)
  | s =>
    match digits s with
    | ([], _) => none
    | (c :: found, rest) => some (c :: found, rest)

/-- The digits after the point, if there is a point; a point without
digits is no number. -/
def fraction? : List Char → Option (List Char × List Char)
  | '.' :: rest =>
    match digits rest with
    | ([], _) => none
    | (c :: found, after) => some (c :: found, after)
  | s => some ([], s)

/-- The sign of an exponent, if there is one. -/
def sign : List Char → Option Char × List Char
  | '+' :: rest => (some '+', rest)
  | '-' :: rest => (some '-', rest)
  | s => (none, s)

/-- The exponent, if there is one; one without digits is no number. -/
def exponent? : List Char → Option ((Option Char × List Char) × List Char)
  | c :: rest =>
    if c = 'e' ∨ c = 'E' then
      match digits (sign rest).2 with
      | ([], _) => none
      | (d :: found, after) => some (((sign rest).1, d :: found), after)
    else some ((none, []), c :: rest)
  | [] => some ((none, []), [])

/-- The number at the front without its sign, and what follows it. -/
def unsigned? (negative : Bool) (s : List Char) : Option (Number × List Char) := do
  let (whole, s) ← whole? s
  let (fraction, s) ← fraction? s
  let ((exponentSign, exponent), s) ← exponent? s
  return ({ negative, whole, fraction, exponentSign, exponent }, s)

/-! ## Lexemes -/

/-- The lexeme that begins with a character, and what follows it. -/
def lexeme? : Char → List Char → Option (Lexeme × List Char)
  | '[', rest => some (.openArray, rest)
  | ']', rest => some (.closeArray, rest)
  | '\x7b', rest => some (.openObject, rest)
  | '\x7d', rest => some (.closeObject, rest)
  | ':', rest => some (.colon, rest)
  | ',', rest => some (.comma, rest)
  | 'n', 'u' :: 'l' :: 'l' :: rest => some (.null, rest)
  | 't', 'r' :: 'u' :: 'e' :: rest => some (.true, rest)
  | 'f', 'a' :: 'l' :: 's' :: 'e' :: rest => some (.false, rest)
  | '"', rest => (stringFrom [] rest).map fun (pieces, after) => (.string pieces, after)
  | '-', rest => (unsigned? true rest).map fun (n, after) => (.number n, after)
  | c, rest =>
    if c.isDigit then (unsigned? false (c :: rest)).map fun (n, after) => (.number n, after)
    else none

/-! ## What follows is shorter -/

theorem length_stringFrom {pieces found : List Piece} {s rest : List Char}
    (h : stringFrom pieces s = some (found, rest)) : rest.length < s.length := by
  fun_induction stringFrom pieces s with
  | case1 =>
    simp only [Option.some.injEq, Prod.mk.injEq] at h
    obtain ⟨-, rfl⟩ := h
    simp
  | case2 pieces a b c d s ih =>
    simp only [Option.bind_eq_bind, Option.bind_eq_some_iff] at h
    obtain ⟨n, -, h⟩ := h
    have := ih n h
    simp only [List.length_cons]
    omega
  | case3 pieces c s _ ih =>
    simp only [Option.bind_eq_bind, Option.bind_eq_some_iff] at h
    obtain ⟨e, -, h⟩ := h
    have := ih e h
    simp only [List.length_cons]
    omega
  | case4 => simp at h
  | case5 pieces c s _ _ _ _ ih =>
    have := ih h
    simp only [List.length_cons]
    omega
  | case6 => simp at h

theorem length_digits (s : List Char) :
    (digits s).1.length + (digits s).2.length = s.length := by
  rw [digits, ← List.length_append, List.takeWhile_append_dropWhile]

theorem length_whole {s found rest : List Char} (h : whole? s = some (found, rest)) :
    rest.length < s.length := by
  unfold whole? at h
  split at h
  · simp only [Option.some.injEq, Prod.mk.injEq] at h
    obtain ⟨-, rfl⟩ := h
    simp
  · have hlen := length_digits s
    split at h
    · simp at h
    · rename_i heq
      simp only [Option.some.injEq, Prod.mk.injEq] at h
      obtain ⟨-, rfl⟩ := h
      rw [heq] at hlen
      simp only [List.length_cons] at hlen
      omega

theorem length_fraction {s found rest : List Char} (h : fraction? s = some (found, rest)) :
    rest.length ≤ s.length := by
  unfold fraction? at h
  split at h
  · rename_i s'
    have hlen := length_digits s'
    split at h
    · simp at h
    · rename_i heq
      simp only [Option.some.injEq, Prod.mk.injEq] at h
      obtain ⟨-, rfl⟩ := h
      rw [heq] at hlen
      simp only [List.length_cons] at hlen ⊢
      omega
  · simp only [Option.some.injEq, Prod.mk.injEq] at h
    obtain ⟨-, rfl⟩ := h
    exact Nat.le_refl _

theorem length_sign (s : List Char) : (sign s).2.length ≤ s.length := by
  unfold sign
  split <;> simp

theorem length_exponent {s rest : List Char} {found : Option Char × List Char}
    (h : exponent? s = some (found, rest)) : rest.length ≤ s.length := by
  unfold exponent? at h
  split at h
  · rename_i c s'
    have hsign := length_sign s'
    have hlen := length_digits (sign s').2
    split at h
    · split at h
      · simp at h
      · rename_i heq
        simp only [Option.some.injEq, Prod.mk.injEq] at h
        obtain ⟨-, rfl⟩ := h
        rw [heq] at hlen
        simp only [List.length_cons] at hlen ⊢
        omega
    · simp only [Option.some.injEq, Prod.mk.injEq] at h
      obtain ⟨-, rfl⟩ := h
      exact Nat.le_refl _
  · simp only [Option.some.injEq, Prod.mk.injEq] at h
    obtain ⟨-, rfl⟩ := h
    exact Nat.le_refl _

theorem length_unsigned {negative : Bool} {s rest : List Char} {n : Number}
    (h : unsigned? negative s = some (n, rest)) : rest.length < s.length := by
  simp only [unsigned?, Option.bind_eq_bind, Option.bind_eq_some_iff] at h
  obtain ⟨⟨w, s₁⟩, hw, ⟨f, s₂⟩, hf, ⟨⟨es, e⟩, s₃⟩, he, h⟩ := h
  have h₁ := length_whole hw
  have h₂ := length_fraction hf
  have h₃ := length_exponent he
  simp only [Pure.pure, Option.some.injEq, Prod.mk.injEq] at h
  obtain ⟨-, rfl⟩ := h
  simp only at h₂ h₃
  omega

/-- What follows a lexeme is part of what follows its first character. -/
theorem length_lexeme {c : Char} {s rest : List Char} {x : Lexeme}
    (h : lexeme? c s = some (x, rest)) : rest.length ≤ s.length := by
  unfold lexeme? at h
  split at h
  case h_10 =>
    simp only [Option.map_eq_some_iff, Prod.mk.injEq, Prod.exists] at h
    obtain ⟨pieces, after, hstring, -, rfl⟩ := h
    exact Nat.le_of_lt (length_stringFrom hstring)
  case h_11 =>
    simp only [Option.map_eq_some_iff, Prod.mk.injEq, Prod.exists] at h
    obtain ⟨n, after, hnumber, -, rfl⟩ := h
    exact Nat.le_of_lt (length_unsigned hnumber)
  case h_12 =>
    split at h
    · simp only [Option.map_eq_some_iff, Prod.mk.injEq, Prod.exists] at h
      obtain ⟨n, after, hnumber, -, rfl⟩ := h
      have := length_unsigned hnumber
      simp only [List.length_cons] at this
      omega
    · simp at h
  case h_7 | h_8 | h_9 =>
    simp only [Option.some.injEq, Prod.mk.injEq] at h
    obtain ⟨-, rfl⟩ := h
    simp only [List.length_cons]
    omega
  all_goals
    simp only [Option.some.injEq, Prod.mk.injEq] at h
    obtain ⟨-, rfl⟩ := h
    exact Nat.le_refl _

/-! ## Texts -/

/-- The lexemes of a text, after those given in reverse. -/
def lexemesFrom (found : List Lexeme) : List Char → Option (List Lexeme)
  | [] => some found.reverse
  | c :: rest =>
    if isBlank c then lexemesFrom found rest
    else
      match _hlex : lexeme? c rest with
      | some (x, after) => lexemesFrom (x :: found) after
      | none => none
  termination_by s => s.length
  decreasing_by
    · simp
    · have := length_lexeme _hlex
      simp only [List.length_cons]
      omega

/-- The lexemes of a text. -/
def lexemes (s : List Char) : Option (List Lexeme) := lexemesFrom [] s

end Json

end BasicLexer
