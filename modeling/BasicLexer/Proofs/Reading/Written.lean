import Mathlib
import BasicLexer.Proofs.Reading.Spellings

/-!
# Reading — tokens written down

`Token.written` writes a token as a program could: a word as it was read, a
number in base ten, a string in quotes with escapes. Which tokens there are
to write is `Token.Legible`, and every token that is read off a line is one
(`Lexeme.legible_of_read`). A keyword that opens compounds is read as a
token of its own only where the word after it makes none with it, and that
word is still the one which the next token is written with
(`Lexeme.apart_of_read`).
-/

namespace BasicLexer

open Reader Grammar

namespace Bytes

/-! ## Bytes of texts -/

/-- The bytes of a text, one a character. -/
def ofText (text : String) : Bytes := text.toList.map fun c => UInt8.ofNat c.toNat

/-- Bytes are those of the text they stand for. -/
theorem ofText_text (bytes : Bytes) : ofText bytes.text = bytes := by
  have hbyte (b : Byte) : UInt8.ofNat b.toChar.toNat = b := by
    rw [Byte.toNat_toChar, UInt8.ofNat_toNat]
  rw [ofText, toList_text, List.map_map]
  exact (List.map_congr_left fun b _ => hbyte b).trans (List.map_id bytes)

theorem ofText_append (s t : String) : ofText (s ++ t) = ofText s ++ ofText t := by
  rw [ofText, String.toList_append, List.map_append, ofText, ofText]

/-- Two words with a space between. -/
theorem ofText_spaced (first second : Bytes) :
    ofText (first.text ++ " " ++ second.text) = first ++ 32 :: second := by
  have hspace : ofText " " = [32] := by decide
  rw [ofText_append, ofText_append, ofText_text, ofText_text, hspace, List.append_assoc,
    List.singleton_append]

/-! ## Numbers in base ten -/

/-- A number in base ten. -/
def decimal (n : Nat) : Bytes := ofText (toString n)

theorem decimal_eq (n : Nat) :
    decimal n = (Nat.toDigits 10 n).map fun c => UInt8.ofNat c.toNat := by
  rw [decimal, ofText, Nat.toString_eq_ofList_toDigits, String.toList_ofList]

theorem decimal_ne_nil (n : Nat) : decimal n ≠ [] := by
  rw [decimal_eq, ne_eq, List.map_eq_nil_iff]
  exact Nat.toDigits_ne_nil

/-- A digit as a byte counts for what it does as a character. -/
theorem digit_ofNat {c : Char} (hc : c.isDigit = true) :
    Byte.isDigit (UInt8.ofNat c.toNat) = true ∧
      Byte.digitValue (UInt8.ofNat c.toNat) = c.toNat - 48 := by
  have hbounds : 48 ≤ c.toNat ∧ c.toNat ≤ 57 := by
    simpa [Char.isDigit, UInt32.le_iff_toNat_le] using hc
  have hbyte : (UInt8.ofNat c.toNat).toNat = c.toNat := by
    rw [UInt8.toNat_ofNat']
    omega
  have hdigit : Byte.isDigit (UInt8.ofNat c.toNat) = true := by
    simp only [Byte.isDigit, Bool.and_eq_true, decide_eq_true_eq, UInt8.le_iff_toNat_le, hbyte]
    exact hbounds
  exact ⟨hdigit, by rw [Byte.digitValue, if_pos hdigit, hbyte]⟩

theorem isDigit_of_mem_decimal {n : Nat} {b : Byte} (hb : b ∈ decimal n) : b.isDigit = true := by
  rw [decimal_eq] at hb
  obtain ⟨c, hc, rfl⟩ := List.mem_map.mp hb
  exact (digit_ofNat (Nat.isDigit_of_mem_toDigits (by decide) (by decide) hc)).1

/-- The digits write the number. -/
theorem magnitude_decimal (n : Nat) : magnitude .decimal (decimal n) = n := by
  have hvalue (m : Nat) (c : Char) (hc : c ∈ Nat.toDigits 10 n) :
      m * Radix.decimal.base + Byte.digitValue (UInt8.ofNat c.toNat) = 10 * m + (c.toNat - 48) := by
    have hdigit := Nat.isDigit_of_mem_toDigits (by decide) (by decide) hc
    rw [(digit_ofNat hdigit).2, Nat.mul_comm 10 m]
    rfl
  calc magnitude .decimal (decimal n)
    _ = (Nat.toDigits 10 n).foldl (fun m c => 10 * m + (c.toNat - 48)) 0 := by
      rw [magnitude, decimal_eq, List.foldl_map]
      exact List.foldl_ext _ _ _ hvalue
    _ = Nat.ofDigitChars 10 (Nat.toDigits 10 n) 0 := Nat.ofDigitChars_eq_foldl.symm
    _ = n := Nat.ofDigitChars_ten_toDigits

/-- A machine word takes ten digits at most. -/
theorem length_decimal_le (word : UInt32) : (decimal word.toNat).length ≤ 10 := by
  have hlt : word.toNat < 10 ^ 10 := Nat.lt_trans word.toNat_lt (by decide)
  rw [decimal_eq, List.length_map]
  exact (Nat.length_toDigits_le_iff (by decide) (by decide)).mpr hlt

end Bytes

namespace Quotation

/-! ## Strings in quotes -/

/-- A character of a string as it is written between double quotes. -/
def escape (b : Byte) : Bytes :=
  if b = Byte.doubleQuote ∨ b = Byte.backslash then [Byte.backslash, b]
  else if b = Byte.newline then [Byte.backslash, Byte.letterN]
  else if b = Byte.tab then [Byte.backslash, Byte.letterT]
  else if b = Byte.carriageReturn then [Byte.backslash, Byte.letterR]
  else [b]

/-- A string in double quotes. -/
def quoted (contents : Bytes) : Bytes :=
  Byte.doubleQuote :: contents.flatMap escape ++ [Byte.doubleQuote]

/-- That is one of the ways to write it. -/
theorem writes_escape (b : Byte) : Writes (escape b) b := by
  unfold escape
  split
  · rename_i hself
    rcases hself with rfl | rfl <;> exact .escaped (by decide) (by decide) (by decide) (by decide)
  split
  · rename_i hb
    exact hb ▸ .newline
  split
  · rename_i hb
    exact hb ▸ .tab
  split
  · rename_i hb
    exact hb ▸ .carriageReturn
  · rename_i hself hnewline _ _
    obtain ⟨hquote, hbackslash⟩ := not_or.mp hself
    exact .raw hquote hbackslash hnewline

/-- And a string in quotes is spelled. -/
theorem spells_escape (contents : Bytes) : Spells (contents.flatMap escape) contents := by
  induction contents with
  | nil => exact .nil
  | cons b contents ih => exact .cons (writes_escape b) ih

/-- A newline is never written as it is. -/
theorem newline_not_mem_quoted (contents : Bytes) : Byte.newline ∉ quoted contents := by
  have hinside : Byte.newline ∉ contents.flatMap escape := by
    intro hmem
    obtain ⟨b, -, hb⟩ := List.mem_flatMap.mp hmem
    rcases (writes_escape b).cases with ⟨hplain, -, -, hne⟩ | ⟨c, hescaped, -, hne⟩
    · rw [hplain] at hb
      exact hne (List.mem_singleton.mp hb).symm
    · rw [hescaped, List.mem_cons, List.mem_singleton] at hb
      exact hb.elim (by decide) fun h => hne h.symm
  rw [quoted, List.cons_append, List.mem_cons, List.mem_append, List.mem_singleton]
  exact not_or.mpr ⟨by decide, not_or.mpr ⟨hinside, by decide⟩⟩

/-- Contents that are read had room. -/
theorem length_of_closed {taken contents rest : Bytes} {passed room reach : Nat}
    (hbody : bodyFrom taken passed room rest = .closed contents reach) :
    contents.length ≤ taken.length + room := by
  fun_induction bodyFrom taken passed room rest with
  | case1 | case3 | case4 | case6 => cases hbody
  | case2 | case5 =>
    cases hbody
    rw [List.length_reverse]
    omega
  | case7 taken passed room c rest _ hroom ih | case8 taken passed room b c rest _ hroom _ ih =>
    have hrest := ih hbody
    rw [List.length_cons] at hrest
    omega

end Quotation

/-! ## Tokens -/

/-- **A token written down**: a word and a compound as they were read, an
operator and a character as they are spelled, a number in base ten without
a sign, and a string in quotes. -/
def Token.written (t : Token) : Bytes :=
  match t.kind with
  | .keyword _ | .compound _ | .identifier => Bytes.ofText t.text
  | .operator o => Bytes.ofText o.spelling
  | .number => Bytes.decimal t.value.toUInt32.toNat
  | .string => Quotation.quoted (Bytes.ofText t.text)
  | .character b => [b]
  | .endOfLine | .endOfFile => []

theorem Token.written_operator (o : Operator) (offset : Nat) :
    Token.written { kind := .operator o, offset } = o.bytes := by
  show Bytes.ofText o.spelling = o.bytes
  rw [← o.text_bytes, Bytes.ofText_text]

/-- Tokens are the same but for where they stand and for how a number is
written. -/
structure Token.Same (t u : Token) : Prop where
  kind : u.kind = t.kind
  value : u.value = t.value
  text : t.kind ≠ .number → u.text = t.text

/-- Tokens written down on a line, with a space between any two. -/
def Bytes.ofTokens (tokens : List Token) : Bytes :=
  [32].intercalate (tokens.map Token.written) ++ [Byte.newline]

/-- Word bytes there is room for. -/
structure Word.Fits (options : Options) (word : Bytes) : Prop where
  all : ∀ b ∈ word, b.isWord = true
  within : word.length ≤ room options

/-- The tokens there are to be written on a line: those whose text, value
and kind go together. -/
inductive Token.Legible (options : Options) : Token → Prop
  | identifier {b : Byte} {rest : Bytes} {offset : Nat} (hdigit : b.isDigit = false)
    (hfits : Word.Fits options (b :: rest)) (hword : Word.keyword? (b :: rest) = none) :
    Legible options { kind := .identifier, text := Bytes.text (b :: rest), offset }
  | keyword {b : Byte} {rest : Bytes} {k : Keyword} {offset : Nat} (hdigit : b.isDigit = false)
    (hfits : Word.Fits options (b :: rest)) (hword : Word.keyword? (b :: rest) = some k) :
    Legible options { kind := .keyword k, text := Bytes.text (b :: rest), offset }
  | compound {b : Byte} {rest second : Bytes} {c : Compound} {offset : Nat}
    (hdigit : b.isDigit = false) (hfits : Word.Fits options (b :: rest))
    (hfirst : Word.keyword? (b :: rest) = some c.first) (hfits' : Word.Fits options second)
    (hsecond : Word.keyword? second = some c.second) :
    Legible options
      { kind := .compound c, text := Bytes.text (b :: rest) ++ " " ++ second.text, offset }
  | operator {o : Operator} {offset : Nat} : Legible options { kind := .operator o, offset }
  | number {text : String} {value : Int32} {offset : Nat} :
    Legible options { kind := .number, text, value, offset }
  | string {contents : Bytes} {offset : Nat} (hroom : contents.length ≤ options.maxToken) :
    Legible options { kind := .string, text := contents.text, offset }
  | character {b : Byte} {offset : Nat} (hblank : b.isBlank = false) (hword : b.isWord = false)
    (hdouble : b ≠ Byte.doubleQuote) (hsingle : b ≠ Byte.singleQuote) :
    Legible options { kind := .character b, offset }

namespace Token.Legible

variable {options : Options} {t : Token}

/-- A legible token is not that of the end of the line. -/
theorem kind_ne (hlegible : t.Legible options) : t.kind ≠ .endOfLine := by
  cases hlegible <;> nofun

end Token.Legible

/-- A keyword and the first word of a token after it make no compound. -/
def Keyword.Apart (k : Keyword) (t : Token) : Prop :=
  (Word.keyword? (wordRun t.written)).bind (Compound.ofWords? k) = none

namespace Word

/-- A digit begins no keyword. -/
theorem keyword?_of_digit {b : Byte} (hdigit : b.isDigit = true) (rest : Bytes) :
    keyword? (b :: rest) = none := by
  have hupper : b.toChar.toUpper.isDigit = true := by
    have hbounds : 48 ≤ b.toNat ∧ b.toNat ≤ 57 := by
      simpa [Byte.isDigit, UInt8.le_iff_toNat_le] using hdigit
    obtain ⟨hle, hge⟩ := hbounds
    rw [Byte.toChar]
    generalize b.toNat = n at hle hge
    interval_cases n <;> decide
  have hnames (k : Keyword) : ∀ c ∈ k.name.toList.head?, c.isDigit = false := by
    cases k <;> simp [Keyword.name]
  rw [keyword?, Keyword.ofWord?, List.find?_eq_none]
  intro k _ hname
  have hlist := of_decide_eq_true hname
  rw [Bytes.toList_text, List.map_cons, List.map_cons] at hlist
  have hhead := hnames k b.toChar.toUpper (by rw [hlist]; rfl)
  rw [hupper] at hhead
  cases hhead

/-- Without a word there is no compound. -/
theorem bind_keyword?_nil (k : Keyword) : (keyword? []).bind (Compound.ofWords? k) = none := by
  rw [keyword?_nil, Option.bind_none]

/-- Nor is there one with a number. -/
theorem bind_keyword?_decimal (k : Keyword) (n : Nat) :
    (keyword? (wordRun (Bytes.decimal n))).bind (Compound.ofWords? k) = none := by
  obtain ⟨b, rest, hdecimal⟩ := List.exists_cons_of_ne_nil (Bytes.decimal_ne_nil n)
  have hdigit : b.isDigit = true :=
    Bytes.isDigit_of_mem_decimal (hdecimal ▸ List.mem_cons_self)
  have hword : b.isWord = true := by
    rw [Byte.isWord, hdigit, Bool.or_true, Bool.true_or]
  rw [hdecimal, wordRun, List.takeWhile_cons_of_pos hword, keyword?_of_digit hdigit,
    Option.bind_none]

end Word

namespace Grammar

/-! ## Words in front -/

theorem wordRun_of_word {b : Byte} {rest : Bytes} (hword : b.isWord = true) :
    wordRun (b :: rest) = b :: wordRun rest :=
  List.takeWhile_cons_of_pos hword

theorem wordRun_append {word rest : Bytes} (hword : ∀ b ∈ word, b.isWord = true) :
    wordRun (word ++ rest) = word ++ wordRun rest :=
  List.takeWhile_append_of_pos hword

theorem wordRun_of_all {word : Bytes} (hword : ∀ b ∈ word, b.isWord = true) :
    wordRun word = word :=
  List.takeWhile_eq_self_iff.mpr hword

/-- A word is written as its bytes, and a compound as those of its two
words with a space between. -/
theorem written_word (b : Byte) (rest : Bytes) (column : Nat) :
    ((word b rest).token column).written =
      match (Word.keyword? (b :: wordRun rest)).bind fun k =>
        (Word.keyword? (secondRun rest)).bind (Compound.ofWords? k) with
      | none => b :: wordRun rest
      | some _ => (b :: wordRun rest) ++ 32 :: secondRun rest := by
  cases hfirst : Word.keyword? (b :: wordRun rest) with
  | none =>
    simp only [word, hfirst, Option.bind_none]
    exact Bytes.ofText_text _
  | some k =>
    cases hjoined : (Word.keyword? (secondRun rest)).bind (Compound.ofWords? k) with
    | none =>
      simp only [word, hfirst, hjoined, Option.bind_some]
      exact Bytes.ofText_text _
    | some c =>
      simp only [word, hfirst, hjoined, Option.bind_some]
      exact Bytes.ofText_spaced _ _

/-- A keyword is an item where no compound is, and it takes the rest of its
word. -/
theorem taken_of_keyword {b : Byte} {rest : Bytes} {k : Keyword}
    (hkind : (item b rest).kind = .keyword k) :
    (item b rest).taken = (wordRun rest).length ∧
      (Word.keyword? (secondRun rest)).bind (Compound.ofWords? k) = none := by
  unfold item at hkind ⊢
  split at hkind
  · cases hkind
  split at hkind
  · cases hkind
  split at hkind
  · rename_i hdigit hword
    rw [if_neg hdigit, if_pos hword]
    unfold word at hkind ⊢
    dsimp only at hkind ⊢
    split at hkind
    · cases hkind
    split at hkind
    · rename_i hjoined
      cases hkind
      exact ⟨rfl, hjoined⟩
    · cases hkind
  · cases hkind

end Grammar

namespace Lexeme

variable {options : Options} {h h' : Head} {t : Token}

/-! ## What is read is legible -/

/-- There is room for a string that is read. -/
theorem length_of_readString {contents : Bytes}
    (hstring : Quotation.readString options h = .ok contents h') :
    contents.length ≤ options.maxToken := by
  unfold Quotation.readString at hstring
  split at hstring
  · rename_i hbody
    cases hstring
    have hlength := Quotation.length_of_closed hbody
    rwa [List.length_nil, Nat.zero_add] at hlength
  · cases hstring
  · cases hstring

/-- A token that is read is that of the end of the line, a literal in
quotes, or what the grammar makes of the first byte that is not blank. -/
theorem read_cases (hread : read options h = .ok t h') :
    t = endOfLine t.offset ∨
      ∃ b after, h.visible.dropWhile Byte.isBlank = b :: Shown.bytes after ∧ b.isBlank = false ∧
        ((∃ contents : Bytes, b = Byte.doubleQuote ∧ contents.length ≤ options.maxToken ∧
            t = { kind := .string, text := contents.text, offset := t.offset }) ∨
          (b = Byte.singleQuote ∧
            t = { kind := .number, text := t.text, value := t.value, offset := t.offset }) ∨
          (b ≠ Byte.doubleQuote ∧ b ≠ Byte.singleQuote ∧
            outcome options b t.offset after = .ok (t, h'.sights))) := by
  have hvisible := dropWhile_of_skipBlanksFrom h
  rw [read_eq] at hread
  rcases hskip : skipBlanksFrom h with ⟨_ | b, h₁⟩
  · rw [hskip] at hread
    cases hread
    exact .inl rfl
  rw [hskip] at hread hvisible
  refine .inr ⟨b, h₁.sights, by rw [hvisible, h₁.bytes_sights], isBlank_of_skipBlanksFrom hskip, ?_⟩
  rcases readFrom_cases hread with
    ⟨rfl, contents, hstring, rfl⟩ | ⟨rfl, content, -, rfl⟩ | ⟨hdouble, hsingle, houtcome⟩
  · exact .inl ⟨contents, rfl, length_of_readString hstring, rfl⟩
  · exact .inr (.inl ⟨rfl, rfl⟩)
  · rw [Head.sights_noted] at houtcome
    have hoffset : t.offset = h₁.column - 1 := by
      rw [(outcome_eq_ok.mp houtcome).2.1]
      rfl
    exact .inr (.inr ⟨hdouble, hsingle, hoffset ▸ houtcome⟩)

/-- The words of the grammar fit where they are not refused. -/
theorem fits_of_not_refused {b : Byte} {rest : Bytes} (hword : b.isWord = true)
    (hdigit : b.isDigit = false) (hkept : refusal? options b rest = none) :
    Word.Fits options (b :: wordRun rest) ∧
      (opens (b :: wordRun rest) = true → Word.Fits options (secondRun rest)) := by
  have hrun (bytes : Bytes) : ∀ c ∈ wordRun bytes, c.isWord = true :=
    List.all_eq_true.mp List.all_takeWhile
  rw [refusal?, hdigit, hword] at hkept
  simp only [Bool.false_eq_true, if_false, if_true] at hkept
  split at hkept
  · cases hkept
  rename_i hfirst
  split at hkept
  · cases hkept
  rename_i hsecond
  refine ⟨⟨List.forall_mem_cons.mpr ⟨hword, hrun rest⟩, Nat.le_of_not_lt hfirst⟩, fun hopens => ?_⟩
  exact ⟨hrun _, Nat.le_of_not_lt fun hlong => hsecond ⟨hopens, hlong⟩⟩

/-- What the grammar makes of a byte is legible if it is not refused. -/
theorem legible_item {b : Byte} {rest : Bytes} (column : Nat) (hblank : b.isBlank = false)
    (hdouble : b ≠ Byte.doubleQuote) (hsingle : b ≠ Byte.singleQuote)
    (hkept : refusal? options b rest = none) :
    ((item b rest).token column).Legible options := by
  unfold item
  split
  · exact .operator
  split
  · exact .number
  rename_i hdigit
  rw [Bool.not_eq_true] at hdigit
  split
  · rename_i hword
    obtain ⟨hfits, hfits'⟩ := fits_of_not_refused hword hdigit hkept
    unfold word
    dsimp only
    split
    · rename_i hfirst
      exact .identifier hdigit hfits hfirst
    rename_i k hfirst
    split
    · exact .keyword hdigit hfits hfirst
    · rename_i c hjoined
      obtain ⟨k', hsecond, hcompound⟩ := Option.bind_eq_some_iff.mp hjoined
      obtain ⟨rfl, rfl⟩ := Compound.ofWords?_eq_some.mp hcompound
      have hopens : opens (b :: wordRun rest) = true := by
        rw [opens, hfirst]
        exact c.opensCompound_first
      exact .compound hdigit hfits hfirst (hfits' hopens) hsecond
  · rename_i hword
    exact .character hblank (Bool.eq_false_iff.mpr hword) hdouble hsingle

/-- **Every token that is read is legible**, but for that of the end of
the line. -/
theorem legible_of_read (hread : read options h = .ok t h') :
    t = endOfLine t.offset ∨ t.Legible options := by
  refine (read_cases hread).imp_right ?_
  rintro ⟨b, after, -, hblank, hcases⟩
  rcases hcases with ⟨contents, -, hroom, htoken⟩ | ⟨-, htoken⟩ | ⟨hdouble, hsingle, houtcome⟩
  · rw [htoken]
    exact .string hroom
  · rw [htoken]
    exact .number
  · obtain ⟨hkept, htoken, -⟩ := outcome_eq_ok.mp houtcome
    rw [htoken]
    exact legible_item _ hblank hdouble hsingle hkept

/-- The word that an item of the grammar is written with makes a compound
with a keyword before it only if the bytes it is made of do. -/
theorem apart_item {b : Byte} {rest : Bytes} (column : Nat) {k : Keyword}
    (hnone : (Word.keyword? (wordRun (b :: rest))).bind (Compound.ofWords? k) = none) :
    k.Apart ((item b rest).token column) := by
  unfold Keyword.Apart item
  split
  · rename_i o _
    have hrun : wordRun (Bytes.ofText o.spelling) = [] := by
      rw [← o.text_bytes, Bytes.ofText_text]
      cases o <;> rfl
    exact hrun.symm ▸ Word.bind_keyword?_nil k
  split
  · exact Word.bind_keyword?_decimal k _
  split
  · rename_i hword
    have hfirst : ∀ c ∈ b :: wordRun rest, c.isWord = true :=
      List.forall_mem_cons.mpr ⟨hword, List.all_eq_true.mp List.all_takeWhile⟩
    have hwritten : wordRun ((word b rest).token column).written = wordRun (b :: rest) := by
      rw [wordRun_of_word hword, written_word]
      split
      · exact wordRun_of_all hfirst
      · rw [wordRun_append hfirst]
        exact List.append_nil _
    rw [hwritten]
    exact hnone
  · rename_i hword
    have hrun : wordRun [b] = [] := List.takeWhile_cons_of_neg hword
    exact hrun.symm ▸ Word.bind_keyword?_nil k

/-- **A token after a keyword that opens none is apart from it.** -/
theorem apart_of_read {k : Keyword} (hread : read options h = .ok t h')
    (hkind : t.kind ≠ .endOfLine) (hnone : Word.joined? k h = none) : k.Apart t := by
  obtain ⟨b, after, hvisible, -, hcases⟩ := (read_cases hread).resolve_left fun hend =>
    hkind (congrArg Token.kind hend)
  rw [Word.joined?, Word.following, hvisible] at hnone
  rcases hcases with ⟨contents, -, -, htoken⟩ | ⟨-, htoken⟩ | ⟨-, -, houtcome⟩
  · rw [htoken]
    exact Word.bind_keyword?_nil k
  · rw [htoken]
    exact Word.bind_keyword?_decimal k _
  · rw [(outcome_eq_ok.mp houtcome).2.1]
    exact apart_item t.offset hnone

/-- **A keyword that is read by itself** makes no compound with what
follows it. -/
theorem joined?_of_read {k : Keyword} (hread : read options h = .ok t h')
    (hkind : t.kind = .keyword k) : Word.joined? k h' = none := by
  obtain ⟨b, after, -, -, hcases⟩ := (read_cases hread).resolve_left fun hend => by
    rw [hend] at hkind
    cases hkind
  rcases hcases with ⟨contents, -, -, htoken⟩ | ⟨-, htoken⟩ | ⟨-, -, houtcome⟩
  · rw [htoken] at hkind
    cases hkind
  · rw [htoken] at hkind
    cases hkind
  obtain ⟨-, htoken, hafter⟩ := outcome_eq_ok.mp houtcome
  have hitem : (item b (Shown.bytes after)).kind = .keyword k := by
    rw [htoken] at hkind
    exact hkind
  obtain ⟨htaken, hnone⟩ := taken_of_keyword hitem
  have hvisible : h'.visible = (Shown.bytes after).dropWhile Byte.isWord := by
    rw [← h'.bytes_sights, hafter, Shown.bytes_drop, htaken, wordRun, drop_takeWhile]
  rw [Word.joined?, Word.following, hvisible]
  exact hnone

end Lexeme

end BasicLexer
