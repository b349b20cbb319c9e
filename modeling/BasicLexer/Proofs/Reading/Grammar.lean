import BasicLexer.Lexeme
import BasicLexer.Proofs.Reading.Sights

/-!
# Reading — the grammar of tokens

What the tokens of a line are, told of its bytes and without a reader: at
every byte that is not blank a token begins, and it is the longest there
is. `Grammar.item` says which it is and how far it goes; the options of a
scan have no say in that. They say what is refused: `Grammar.refusal?`.
A line is cut into its tokens from the left, `Grammar.scan`, up to the
first that is refused.

Quotes are left out: a byte that is a quote counts as a character here.
-/

namespace BasicLexer

/-- An operator as bytes. -/
def Operator.bytes : Operator → Bytes
  | lessEqual => [Byte.less, Byte.equal]
  | notEqual => [Byte.less, Byte.greater]
  | greaterEqual => [Byte.greater, Byte.equal]
  | shiftLeft => [Byte.less, Byte.less]
  | shiftRight => [Byte.greater, Byte.greater]

/-- The bytes of an operator are its spelling. -/
theorem Operator.text_bytes (o : Operator) : o.bytes.text = o.spelling := by
  cases o <;> decide

namespace Grammar

/-- A token apart from its place: its kind, its text and its value, and
how many bytes it takes after its first. -/
structure Item where
  kind : Kind
  text : String := ""
  value : Int32 := 0
  taken : Nat := 0
  deriving DecidableEq, Repr

/-- The token of an item at a column. -/
def Item.token (item : Item) (column : Nat) : Token where
  kind := item.kind
  text := item.text
  value := item.value
  offset := column

/-! ## Operators -/

/-- The operator of two characters that bytes begin with. -/
def operator? (bytes : Bytes) : Option Operator :=
  Operator.table.find? fun o => o.bytes.isPrefixOf bytes

/-! ## Numbers -/

/-- How numbers begin that are not written in base ten: `0x`, `0X`, `0b`
and `0B`. -/
def markers : List (Bytes × Radix) :=
  [([48, 120], .hex), ([48, 88], .hex), ([48, 98], .binary), ([48, 66], .binary)]

/-- The base that bytes begin with the marker of. -/
def marker? (bytes : Bytes) : Option Radix :=
  (markers.find? fun m => m.1.isPrefixOf bytes).map Prod.snd

/-- Whether a byte is a digit of a base or the underscore, which may
stand between any two. -/
def isDigitOrGap (radix : Radix) (b : Byte) : Bool := radix.isDigit b || b == Byte.underscore

/-- The longest run of digits and underscores that bytes begin with. -/
def digitRun (radix : Radix) (bytes : Bytes) : Bytes := bytes.takeWhile (isDigitOrGap radix)

/-- A run without its underscores. -/
def digitsOf (run : Bytes) : Bytes := run.filter (· != Byte.underscore)

/-- A number as it is written: its base, its digits, and how many bytes
it takes after its first. -/
structure Figure where
  radix : Radix
  digits : Bytes
  taken : Nat

/-- The number that begins with a digit: a marker and a run of digits of
its base, which may be empty, or else the digit and a run of base ten. -/
def figure (b : Byte) (rest : Bytes) : Figure :=
  match marker? (b :: rest) with
  | some radix =>
    ⟨radix, digitsOf (digitRun radix (rest.drop 1)), 1 + (digitRun radix (rest.drop 1)).length⟩
  | none => ⟨.decimal, b :: digitsOf (digitRun .decimal rest), (digitRun .decimal rest).length⟩

/-- The number that digits of a base write. -/
def magnitude (radix : Radix) (digits : Bytes) : Nat :=
  digits.foldl (fun n digit => n * radix.base + digit.digitValue) 0

/-- The least number that does not fit the machine word: signed in base
ten, unsigned in the others. -/
def bound : Radix → Nat
  | .decimal => UInt32.size / 2
  | .binary | .hex => UInt32.size

/-- The item of a number: its value is the low 32 bits of what it writes,
read as a signed number. -/
def Figure.item (f : Figure) : Item where
  kind := .number
  text := f.digits.text
  value := (UInt32.ofNat (magnitude f.radix f.digits)).toInt32
  taken := f.taken

/-- Whether a number does not fit where numbers that do not fit are
refused. -/
def Figure.Refused (options : Options) (f : Figure) : Prop :=
  options.literalOverflow = .error ∧ bound f.radix ≤ magnitude f.radix f.digits

instance (options : Options) (f : Figure) : Decidable (f.Refused options) :=
  inferInstanceAs (Decidable (_ ∧ _))

/-! ## Words -/

/-- The longest run of word bytes that bytes begin with. -/
def wordRun (bytes : Bytes) : Bytes := bytes.takeWhile Byte.isWord

/-- The blanks after the word that bytes begin with. -/
def gap (bytes : Bytes) : Bytes := (bytes.dropWhile Byte.isWord).takeWhile Byte.isBlank

/-- The word bytes after those blanks. -/
def secondRun (bytes : Bytes) : Bytes :=
  wordRun ((bytes.dropWhile Byte.isWord).dropWhile Byte.isBlank)

/-- A word: two that make a compound are one token, one that spells a
keyword is the keyword, and any other is an identifier. -/
def word (b : Byte) (rest : Bytes) : Item :=
  let first : Bytes := b :: wordRun rest
  let second := secondRun rest
  match Word.keyword? first with
  | none => { kind := .identifier, text := first.text, taken := (wordRun rest).length }
  | some k =>
    match (Word.keyword? second).bind (Compound.ofWords? k) with
    | none => { kind := .keyword k, text := first.text, taken := (wordRun rest).length }
    | some compound =>
      { kind := .compound compound
        text := first.text ++ " " ++ second.text
        taken := (wordRun rest).length + (gap rest).length + second.length }

/-! ## Tokens -/

/-- **The token that begins with a byte**, before the bytes given. -/
def item (b : Byte) (rest : Bytes) : Item :=
  match operator? (b :: rest) with
  | some operator => { kind := .operator operator, taken := 1 }
  | none =>
    if b.isDigit then (figure b rest).item
    else if b.isWord then word b rest
    else { kind := .character b }

section Items

variable {b : Byte} (rest : Bytes)

/-- Only two bytes begin an operator. -/
theorem operator?_eq_none (hless : b ≠ Byte.less) (hgreater : b ≠ Byte.greater) :
    operator? (b :: rest) = none := by
  have hl : (Byte.less == b) = false := beq_eq_false_iff_ne.mpr hless.symm
  have hg : (Byte.greater == b) = false := beq_eq_false_iff_ne.mpr hgreater.symm
  simp [operator?, Operator.table, Operator.bytes, List.isPrefixOf, hl, hg]

theorem item_of_digit (hdigit : b.isDigit = true) : item b rest = (figure b rest).item := by
  have hne : ∀ c : Byte, c.isDigit = false → b ≠ c := by
    rintro c hc rfl
    rw [hdigit] at hc
    cases hc
  rw [item, operator?_eq_none rest (hne _ (by decide)) (hne _ (by decide))]
  simp only [hdigit, if_true]

theorem item_of_word (hword : b.isWord = true) (hdigit : b.isDigit = false) :
    item b rest = word b rest := by
  have hne : ∀ c : Byte, c.isWord = false → b ≠ c := by
    rintro c hc rfl
    rw [hword] at hc
    cases hc
  rw [item, operator?_eq_none rest (hne _ (by decide)) (hne _ (by decide))]
  simp only [hdigit, hword, Bool.false_eq_true, if_false, if_true]

end Items

/-- Whether a word opens compounds, so that the next one is looked at. -/
def opens (word : Bytes) : Bool := (Word.keyword? word).any Keyword.opensCompound

/-- The room there is for a word. One byte is admitted under any
limit. -/
def room (options : Options) : Nat := max options.maxToken 1

/-- **What a token is refused for**, if it is: a number that does not fit
where such numbers are refused, a word there is no room for, and a word
that opens compounds before word bytes there is no room for. -/
def refusal? (options : Options) (b : Byte) (rest : Bytes) : Option Cause :=
  if b.isDigit then
    if (figure b rest).Refused options then some (.numberOutOfRange (figure b rest).digits.text)
    else none
  else if b.isWord then
    let first : Bytes := b :: wordRun rest
    if room options < first.length then some .identifierTooLong
    else if opens first ∧ room options < (secondRun rest).length then some .identifierTooLong
    else none
  else none

/-- No token is that of the end of the line. -/
theorem kind_item (b : Byte) (rest : Bytes) : (item b rest).kind ≠ .endOfLine := by
  unfold item
  split
  · nofun
  split
  · nofun
  split
  · unfold word
    dsimp only
    split
    · nofun
    split <;> nofun
  · nofun

/-- A class in front of bytes and the rest behind it make up the bytes. -/
theorem length_takeWhile_add (p : Byte → Bool) (bytes : Bytes) :
    (bytes.takeWhile p).length + (bytes.dropWhile p).length = bytes.length := by
  rw [← List.length_append, List.takeWhile_append_dropWhile]

theorem taken_figure_le (b : Byte) (rest : Bytes) : (figure b rest).taken ≤ rest.length := by
  unfold figure
  split
  · rename_i radix hmarker
    -- a marker has two bytes, and the second is the first of the rest
    have hpos : rest ≠ [] := by
      rintro rfl
      simp [marker?, markers, List.isPrefixOf] at hmarker
    have hrun := length_takeWhile_add (isDigitOrGap radix) (rest.drop 1)
    have hlength := List.length_pos_iff.mpr hpos
    rw [List.length_drop] at hrun
    simp only [digitRun]
    omega
  · have hrun := length_takeWhile_add (isDigitOrGap .decimal) rest
    simp only [digitRun]
    omega

theorem taken_word_le (b : Byte) (rest : Bytes) : (word b rest).taken ≤ rest.length := by
  have hfirst := length_takeWhile_add Byte.isWord rest
  have hgap := length_takeWhile_add Byte.isBlank (rest.dropWhile Byte.isWord)
  have hsecond := length_takeWhile_add Byte.isWord
    ((rest.dropWhile Byte.isWord).dropWhile Byte.isBlank)
  unfold word
  dsimp only
  split
  · simp only [wordRun]
    omega
  split
  · simp only [wordRun]
    omega
  · simp only [wordRun, gap, secondRun]
    omega

/-- A token takes no more bytes than there are. -/
theorem taken_item_le (b : Byte) (rest : Bytes) : (item b rest).taken ≤ rest.length := by
  unfold item
  split
  · rename_i operator hoperator
    have hprefix : operator.bytes.isPrefixOf (b :: rest) = true := by
      simpa using List.find?_some hoperator
    have hlength := (List.isPrefixOf_iff_prefix.mp hprefix).length_le
    cases operator <;> simpa [Operator.bytes] using hlength
  split
  · exact taken_figure_le b rest
  split
  · exact taken_word_le b rest
  · exact Nat.zero_le _

/-- How a token at a column ends, before what is shown after its first
byte: as the grammar has it, with the sights after it still ahead, or
refused. -/
def outcome (options : Options) (b : Byte) (column : Nat) (rest : Shown) :
    Except Cause (Token × Shown) :=
  match refusal? options b rest.bytes with
  | some cause => .error cause
  | none => .ok ((item b rest.bytes).token column, rest.drop (item b rest.bytes).taken)

section Outcomes

variable {options : Options} {b : Byte} {column : Nat} {rest after : Shown}

/-- A token fails of what it is refused for. -/
theorem outcome_eq_error {cause : Cause} :
    outcome options b column rest = .error cause ↔ refusal? options b rest.bytes = some cause := by
  unfold outcome
  cases refusal? options b rest.bytes <;> simp

/-- What is not refused is the item there, and the sights it does not take
are left. -/
theorem outcome_eq_ok {token : Token} :
    outcome options b column rest = .ok (token, after) ↔
      refusal? options b rest.bytes = none ∧ token = (item b rest.bytes).token column ∧
        after = rest.drop (item b rest.bytes).taken := by
  unfold outcome
  cases refusal? options b rest.bytes <;> simp [eq_comm]

/-- What begins with a digit is a number, refused or not. -/
theorem outcome_of_digit (hdigit : b.isDigit = true) :
    outcome options b column rest =
      let f := figure b rest.bytes
      if f.Refused options then .error (.numberOutOfRange f.digits.text)
      else .ok (f.item.token column, rest.drop f.taken) := by
  rw [outcome, refusal?, if_pos hdigit, item_of_digit _ hdigit]
  dsimp only
  by_cases hrefused : (figure b rest.bytes).Refused options
  · rw [if_pos hrefused, if_pos hrefused]
  · rw [if_neg hrefused, if_neg hrefused]
    rfl

end Outcomes

/-! ## Lines -/

/-- The token of the end of a line. -/
def endOfLine (column : Nat) : Token := { kind := .endOfLine, offset := column }

/-- The tokens of what is shown of a line that ends at a column, through
that of its end, or up to one that is refused and what it is refused
for. -/
def scan (options : Options) (last : Nat) : Shown → List Token × Option Cause
  | [] => ([endOfLine last], none)
  | (b, column) :: rest =>
    if b.isBlank then scan options last rest
    else
      match _hfirst : outcome options b column rest with
      | .error cause => ([], some cause)
      | .ok (token, after) =>
        let next := scan options last after
        (token :: next.1, next.2)
  termination_by shown => shown.length
  decreasing_by
    · exact Nat.lt_succ_self _
    · rw [(outcome_eq_ok.mp _hfirst).2.2, List.length_drop, List.length_cons]
      omega

/-- Where only blanks are shown there is but the end of the line. -/
theorem scan_of_end (options : Options) (last : Nat) {shown : Shown}
    (hblank : shown.dropWhile (fun sight => sight.1.isBlank) = []) :
    scan options last shown = ([endOfLine last], none) := by
  fun_induction scan options last shown with
  | case1 => rfl
  | case2 b column rest hb ih => exact ih (by rwa [List.dropWhile_cons, if_pos hb] at hblank)
  | case3 b column rest hb | case4 b column rest hb =>
    rw [List.dropWhile_cons, if_neg hb] at hblank
    cases hblank

/-- Blanks in front make no difference. -/
theorem scan_of_cons (options : Options) (last : Nat) {shown rest : Shown} {b : Byte}
    {column : Nat}
    (hshown : shown.dropWhile (fun sight => sight.1.isBlank) = (b, column) :: rest) :
    scan options last shown =
      match outcome options b column rest with
      | .error cause => ([], some cause)
      | .ok (token, after) =>
        (token :: (scan options last after).1, (scan options last after).2) := by
  fun_induction scan options last shown with
  | case1 => cases hshown
  | case2 b column rest hb ih => exact ih (by rwa [List.dropWhile_cons, if_pos hb] at hshown)
  | case3 b column rest hb cause hfirst | case4 b column rest hb token after hfirst =>
    rw [List.dropWhile_cons, if_neg hb] at hshown
    cases hshown
    rw [hfirst]

/-- The tokens of a line from a column on when nothing is refused. -/
def tokens (column : Nat) : Bytes → List Token
  | [] => [endOfLine column]
  | b :: rest =>
    if b.isBlank then tokens (column + 1) rest
    else
      let item := item b rest
      item.token column :: tokens (column + 1 + item.taken) (rest.drop item.taken)
  termination_by line => line.length
  decreasing_by all_goals simp only [List.length_drop, List.length_cons]; omega

end Grammar

end BasicLexer
