import BasicLexer.Proofs.Reading.Conformity
import BasicLexer.Proofs.Reading.FullLine

/-!
# Reading — where the tokens of a line stand

A token has the column of its first byte, as the line has it: the letter a
word begins with, in its case, the digit a number begins with, a quote, or
the character itself (`Token.BeginsWith`). The head is behind that byte when
the token is read and never goes back over it, so the columns of the tokens
of a line go up, and that of the end of the line is the line's length
(`Lexeme.group_of_readTokens`).
-/

namespace BasicLexer

open Reader Grammar

namespace Token

/-- Whether a token may begin with a byte, as it is written. A number in
base sixteen or two begins with the zero of its marker, and a character in
single quotes counts as a number. The ends of lines and files are not
written. -/
def BeginsWith (t : Token) (b : Byte) : Prop :=
  match t.kind with
  | .keyword _ | .compound _ | .identifier =>
    b.isWord = true ∧ b.isDigit = false ∧ t.text.toList.head? = some b.toChar
  | .number =>
    b.isDigit = true ∧ (b = Byte.zero ∨ t.text.toList.head? = some b.toChar) ∨
      b = Byte.singleQuote ∧ ∃ content : Byte, t.text = Bytes.text [content]
  | .string => b = Byte.doubleQuote
  | .operator o => o.bytes.head? = some b
  | .character c => c = b
  | .endOfLine | .endOfFile => False

/-- What begins with a byte is no end of a line or of a file. -/
theorem BeginsWith.kind_ne {t : Token} {b : Byte} (hbegins : t.BeginsWith b) :
    t.kind ≠ .endOfLine ∧ t.kind ≠ .endOfFile := by
  constructor <;> intro hkind <;> rw [BeginsWith, hkind] at hbegins <;> exact hbegins

/-- The tokens of a line: any number of them, one behind the other, each at
its first byte, and then that of the end of the line. -/
def Group (text : Bytes) (group : List Token) : Prop :=
  ∃ inner, group = inner ++ [endOfLine text.length] ∧
    inner.Pairwise (fun t next => t.offset < next.offset) ∧
    ∀ t ∈ inner, t.offset < text.length ∧ ∃ b, text[t.offset]? = some b ∧ t.BeginsWith b

end Token

namespace Grammar

/-! ## The first byte -/

theorem beginsWith_word {b : Byte} (hword : b.isWord = true) (hdigit : b.isDigit = false)
    (rest : Bytes) (column : Nat) : ((word b rest).token column).BeginsWith b := by
  have hfirst (more : Bytes) : (Bytes.text (b :: more)).toList.head? = some b.toChar := by
    rw [Bytes.toList_text]
    rfl
  simp only [word]
  split
  · exact ⟨hword, hdigit, hfirst _⟩
  split
  · exact ⟨hword, hdigit, hfirst _⟩
  · refine ⟨hword, hdigit, ?_⟩
    simp [Item.token, String.toList_append, Bytes.toList_text]

theorem beginsWith_figure {b : Byte} (hdigit : b.isDigit = true) (rest : Bytes) (column : Nat) :
    ((figure b rest).item.token column).BeginsWith b := by
  refine .inl ⟨hdigit, ?_⟩
  rw [figure, Lexeme.marker?_eq]
  by_cases hzero : b = Byte.zero
  · exact .inl hzero
  · rw [if_neg hzero]
    refine .inr ?_
    simp [Item.token, Figure.item, Bytes.toList_text]

/-- **A token begins with the byte it is read for.** -/
theorem beginsWith_item (b : Byte) (rest : Bytes) (column : Nat) :
    ((item b rest).token column).BeginsWith b := by
  by_cases hdigit : b.isDigit = true
  · rw [item_of_digit rest hdigit]
    exact beginsWith_figure hdigit rest column
  rw [Bool.not_eq_true] at hdigit
  by_cases hword : b.isWord = true
  · rw [item_of_word rest hword hdigit]
    exact beginsWith_word hword hdigit rest column
  rw [item]
  split
  · rename_i operator hoperator
    have hprefix : operator.bytes.isPrefixOf (b :: rest) = true := by
      simpa using List.find?_some hoperator
    show operator.bytes.head? = some b
    cases operator <;> simp_all [Operator.bytes]
  · rw [if_neg (by rw [hdigit]; exact Bool.false_ne_true), if_neg hword]
    rfl

end Grammar

namespace Head

/-! ## Columns -/

variable {h : Head} {b : Byte}

/-- What is ahead of a placed head takes up the rest of its line. -/
theorem Placed.column_add (hplaced : h.Placed) : h.column + h.ahead.length = h.line.length := by
  rw [length_line, lineLength, hplaced]

/-- The byte behind a placed head is the line's at the column before. -/
theorem Placed.getElem?_line (hplaced : h.Placed) (hbehind : h.behind.head? = some b) :
    0 < h.column ∧ h.line[h.column - 1]? = some b := by
  obtain ⟨behind, hcons⟩ : ∃ behind, h.behind = b :: behind := List.head?_eq_some_iff.mp hbehind
  have hcolumn : h.column = behind.length + 1 := by rw [hplaced, hcons, List.length_cons]
  refine ⟨by omega, ?_⟩
  rw [line, hcons, hcolumn]
  simp

end Head

namespace Reader

theorem behind_skipBlanksFrom {h h' : Head} {b : Byte} (hskip : skipBlanksFrom h = (some b, h')) :
    h'.behind.head? = some b := by
  fun_induction skipBlanksFrom h with
  | case1 h c hnext hblank ih => exact ih hskip
  | case2 h c hnext hblank =>
    cases hskip
    obtain ⟨skipped, after, -, -, hmoved⟩ := Head.next_of_some hnext
    rw [hmoved, List.head?_cons]
  | case3 h hnext => cases hskip

end Reader

namespace Lexeme

/-! ## Tokens -/

variable {options : Options} {h h' : Head} {t : Token}

/-- A token is put where it is said to be, and begins with its byte. -/
theorem beginsWith_readFrom {start : Nat} {b : Byte}
    (hread : readFrom options start b h = .ok t h') : t.offset = start ∧ t.BeginsWith b := by
  rcases readFrom_cases hread with
    ⟨hdouble, _, -, rfl⟩ | ⟨hsingle, content, -, rfl⟩ | ⟨-, -, houtcome⟩
  · exact ⟨rfl, hdouble⟩
  · exact ⟨rfl, .inr ⟨hsingle, content, rfl⟩⟩
  · obtain ⟨-, rfl, -⟩ := outcome_eq_ok.mp houtcome
    exact ⟨rfl, beginsWith_item b _ start⟩

/-- **A token is at its first byte**, which the head goes past and was not
past before; or it is that of the end of the line, at the line's length. -/
theorem read_at (hplaced : h.Placed) (hread : read options h = .ok t h') :
    t = endOfLine h.line.length ∨
      h.column ≤ t.offset ∧ t.offset < h'.column ∧ h'.column ≤ h.line.length ∧
        ∃ b, h.line[t.offset]? = some b ∧ t.BeginsWith b := by
  have hkept := (orderly_read options).along_of_ok hread
  have halong := along_skipBlanksFrom h
  have hless := length_ahead_skipBlanksFrom h
  rw [read_eq] at hread
  rcases hskip : skipBlanksFrom h with ⟨_ | b, h₁⟩ <;> rw [hskip] at hread halong hless <;>
    dsimp only at hread halong
  · have hend := ahead_skipBlanksFrom (h := h) (by rw [hskip])
    rw [hskip] at hend
    have hcolumn := (halong.placed hplaced).column_add
    rw [hend, halong.line] at hcolumn
    cases hread
    exact .inl (by rw [← hcolumn]; rfl)
  · obtain ⟨hpos, hbyte⟩ := (halong.placed hplaced).getElem?_line (behind_skipBlanksFrom hskip)
    obtain ⟨hoffset, hbegins⟩ := beginsWith_readFrom hread
    have hkeeps := keeps_readFrom _ _ _ _ _ _ hread
    -- on one line, the less there is ahead the larger is the column
    have hbefore := hplaced.column_add
    have hthere := (halong.placed hplaced).column_add
    have hafter := (hkept.placed hplaced).column_add
    rw [halong.line] at hthere hbyte
    rw [hkept.line] at hafter
    simp only [Option.isSome_some, if_true] at hless hkeeps
    refine .inr ⟨by omega, by omega, by omega, b, ?_, hbegins⟩
    rw [hoffset]
    exact hbyte

/-! ## Lines -/

/-- From any head on, the tokens stand one behind the other and none before
the head. -/
theorem group_of_readTokens {tokens : List Token} (hplaced : h.Placed)
    (hread : readTokens options h = .ok tokens h') :
    ∃ inner, tokens = inner ++ [endOfLine h.line.length] ∧
      inner.Pairwise (fun t next => t.offset < next.offset) ∧
      ∀ t ∈ inner, h.column ≤ t.offset ∧ t.offset < h.line.length ∧
        ∃ b, h.line[t.offset]? = some b ∧ t.BeginsWith b := by
  fun_induction readTokens options h generalizing tokens with
  | case1 | case4 => cases hread
  | case2 h t h₁ hfirst hend =>
    cases hread
    rcases read_at hplaced hfirst with rfl | ⟨-, -, -, b, -, hbegins⟩
    · exact ⟨[], rfl, .nil, List.forall_mem_nil _⟩
    · exact absurd hend hbegins.kind_ne.1
  | case3 h t h₁ hfirst hend rest h₂ hrest ih =>
    cases hread
    have halong := (orderly_read options).along_of_ok hfirst
    obtain ⟨inner, hinner, hpairs, hplaces⟩ := ih (halong.placed hplaced) hrest
    rw [halong.line] at hinner hplaces
    rcases read_at hplaced hfirst with rfl | ⟨hfrom, hpast, hinside, hbyte⟩
    · exact absurd rfl hend
    · -- the tokens after this one stand past the byte it begins with
      refine ⟨t :: inner, by rw [hinner, List.cons_append], ?_, ?_⟩
      · exact .cons (fun next hnext => Nat.lt_of_lt_of_le hpast (hplaces next hnext).1) hpairs
      · refine List.forall_mem_cons.mpr ⟨⟨hfrom, by omega, hbyte⟩, fun next hnext => ?_⟩
        obtain ⟨hfrom', hinside', hbyte'⟩ := hplaces next hnext
        exact ⟨by omega, hinside', hbyte'⟩

/-- **The tokens of a line** are a group of it. -/
theorem group_readTokens {line : Bytes} {inComment : Bool} {tokens : List Token}
    (hread : readTokens options { ahead := line, inComment } = .ok tokens h') :
    Token.Group line tokens := by
  have hplaced : Head.Placed { ahead := line, inComment } := rfl
  obtain ⟨inner, hinner, hpairs, hplaces⟩ := group_of_readTokens hplaced hread
  exact ⟨inner, hinner, hpairs, fun t ht => (hplaces t ht).2⟩

end Lexeme

end BasicLexer
