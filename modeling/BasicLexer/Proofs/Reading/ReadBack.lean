import BasicLexer.Proofs.Reading.Numerals
import BasicLexer.Proofs.Reading.Uncommented
import BasicLexer.Proofs.Reading.Written

/-!
# Reading — what was written is read back

A legible token that is written down before a space or a newline is read
back as it was (`Lexeme.read_written`): neither a comment nor a longer
token begins there, whatever comes after the separator. A keyword that
opens compounds looks past the separator, so it asks for more: the next
word must make no compound with it, and must not be too long.

Where a head stands is a matter of the bytes it has ahead and not of what
it looked at before: `Head.Stands`.
-/

namespace BasicLexer

open Reader Grammar

namespace Head

/-! ## Alike heads -/

section Alike

variable {h g : Head} (hahead : g.ahead = h.ahead) (hcolumn : g.column = h.column)
  (hcomment : g.inComment = h.inComment)

include hahead hcolumn hcomment

/-- Heads with the same bytes ahead read alike. -/
theorem next_of_alike :
    g.next.1 = h.next.1 ∧
      (h.next.1.isSome = true → g.next.2.ahead = h.next.2.ahead ∧
        g.next.2.column = h.next.2.column ∧ g.next.2.inComment = h.next.2.inComment) := by
  unfold next
  rw [hahead, hcomment]
  cases Sight.ofRest h.inComment 0 h.ahead with
  | byte b reach => simp [forward, hahead, hcolumn]
  | exhausted => simp
  | hidden isOpen => simp

theorem sights_of_alike : g.sights = h.sights := by
  fun_induction sights h generalizing g with
  | case1 h b hnext ih =>
    obtain ⟨hsame, hmoved⟩ := next_of_alike hahead hcolumn hcomment
    obtain ⟨hahead', hcolumn', hcomment'⟩ := hmoved (by rw [hnext]; rfl)
    rw [sights_of_some (hsame.trans hnext), ih hahead' hcolumn' hcomment', hcolumn']
  | case2 h hnext =>
    exact sights_of_none ((next_of_alike hahead hcolumn hcomment).1.trans hnext)

end Alike

end Head

namespace Bytes

/-! ## Bytes that are shown -/

/-- What reading bytes shows, from a column on and outside any comment. -/
def sights (column : Nat) (bytes : Bytes) : Shown := Head.sights { ahead := bytes, column }

/-- A byte that opens no comment is shown, and then what comes after
it. -/
theorem sights_cons {b : Byte} {rest : Bytes} (column : Nat)
    (hopens : ¬ OpensComment b rest.head?) :
    sights column (b :: rest) = (b, column) :: sights (column + 1) rest := by
  have hnext := Head.next_of_not_opens (h := { ahead := b :: rest, column }) rfl rfl hopens
  rw [sights, Head.sights_of_some (by rw [hnext]), hnext]
  exact congrArg _ (Head.sights_of_alike rfl rfl rfl)

/-- So are bytes without slashes, whatever comes after them. -/
theorem sights_append {start : Bytes} (column : Nat) (hslash : Byte.slash ∉ start)
    (rest : Bytes) :
    sights column (start ++ rest) =
      start.zipIdx column ++ sights (column + start.length) rest := by
  induction start generalizing column with
  | nil => rfl
  | cons b start ih =>
    obtain ⟨hb, hstart⟩ := not_or.mp (mt List.mem_cons.mpr hslash)
    have hcolumn : column + (b :: start).length = column + 1 + start.length := by
      rw [List.length_cons]
      omega
    rw [List.cons_append, sights_cons column fun hopens => hb hopens.1.symm,
      ih (column + 1) hstart, hcolumn, List.zipIdx_cons, List.cons_append]

theorem bytes_sights_append {start : Bytes} (column : Nat) (hslash : Byte.slash ∉ start)
    (rest : Bytes) :
    (sights column (start ++ rest)).bytes =
      start ++ (sights (column + start.length) rest).bytes := by
  rw [sights_append column hslash, Shown.bytes, List.map_append, List.zipIdx_map_fst]
  rfl

end Bytes

namespace Head

/-! ## Where a head stands -/

/-- A head reads on as from a column of its line, with the bytes given
ahead there, but for blanks. It may have looked ahead before. -/
structure Stands (h : Head) (column : Nat) (bytes : Bytes) : Prop where
  placed : h.Placed
  line : h.line.drop column = bytes
  sights : h.sights.dropWhile (fun sight => sight.1.isBlank) =
    (bytes.sights column).dropWhile fun sight => sight.1.isBlank

namespace Stands

variable {h h' : Head} {column : Nat} {bytes rest : Bytes} {b : Byte}

/-- A head that shows what comes after so many bytes stands behind them. -/
theorem forward (hstands : h.Stands column (bytes ++ rest)) (halong : h.Along h')
    (hsights : h'.sights = Bytes.sights (column + bytes.length) rest) :
    h'.Stands (column + bytes.length) rest where
  placed := halong.placed hstands.placed
  line := by rw [halong.line, ← List.drop_drop, hstands.line, List.drop_left]
  sights := by rw [hsights]

/-- Before a blank is as good as behind it. -/
theorem blank (hstands : h.Stands column (b :: rest)) (hblank : b.isBlank = true) :
    h.Stands (column + 1) rest where
  placed := hstands.placed
  line := by rw [← List.drop_drop, hstands.line, List.drop_succ_cons, List.drop_zero]
  sights := by
    have hopens : ¬ Bytes.OpensComment b rest.head? := by
      rintro ⟨rfl, -⟩
      cases hblank
    rw [hstands.sights, Bytes.sights_cons column hopens, List.dropWhile_cons, if_pos hblank]

/-- The byte that a head stands before is the first it finds, and the head
is then right behind it. -/
theorem skipBlanksFrom (hstands : h.Stands column (b :: rest)) (hblank : b.isBlank = false)
    (hopens : ¬ Bytes.OpensComment b rest.head?) :
    ∃ h', Reader.skipBlanksFrom h = (some b, h') ∧ h.Along h' ∧ h'.ahead = rest ∧
      h'.column = column + 1 ∧ h'.inComment = false := by
  have hshown := hstands.sights
  have hnot : ¬ b.isBlank = true := Bool.eq_false_iff.mp hblank
  rw [Bytes.sights_cons column hopens, List.dropWhile_cons, if_neg hnot,
    dropWhile_sights] at hshown
  have halong := along_skipBlanksFrom h
  rcases hskip : Reader.skipBlanksFrom h with ⟨_ | c, h'⟩
  · rw [hskip] at hshown
    cases hshown
  rw [hskip] at hshown halong
  dsimp only at hshown halong
  obtain ⟨hfirst, -⟩ := List.cons.inj hshown
  obtain ⟨hc, hbefore⟩ := Prod.mk.inj hfirst
  subst hc
  obtain ⟨hpos, hcomment⟩ := read_of_skipBlanksFrom hskip
  have hcolumn : h'.column = column + 1 := by omega
  refine ⟨h', rfl, halong, ?_, hcolumn, hcomment⟩
  calc h'.ahead
    _ = h'.line.drop (column + 1) := by
      rw [← hcolumn, (halong.placed hstands.placed).ahead_eq]
    _ = (c :: rest).drop 1 := by rw [halong.line, ← List.drop_drop, hstands.line]
    _ = rest := rfl

end Stands

end Head

/-- The bytes that are put behind tokens: a space between two, a newline
after the last. -/
def Byte.Separates (b : Byte) : Prop := b = 32 ∨ b = Byte.newline

namespace Byte

theorem isWord_of_isDigit {b : Byte} (hdigit : b.isDigit = true) : b.isWord = true := by
  rw [isWord, hdigit, Bool.or_true, Bool.true_or]

theorem isBlank_of_isWord {b : Byte} (hword : b.isWord = true) : b.isBlank = false := by
  rw [← Bool.not_eq_true]
  intro hblank
  have hunderscore : underscore.toNat = 95 := rfl
  have hspace : (32 : Byte).toNat = 32 := rfl
  simp only [isWord, isCapital, isSmall, isDigit, Bool.or_eq_true, Bool.and_eq_true,
    decide_eq_true_eq, beq_iff_eq, UInt8.le_iff_toNat_le, ← UInt8.toNat_inj,
    UInt8.reduceToNat] at hword
  simp only [isBlank, Bool.or_eq_true, Bool.and_eq_true, decide_eq_true_eq, beq_iff_eq,
    UInt8.le_iff_toNat_le, ← UInt8.toNat_inj, UInt8.reduceToNat] at hblank
  omega

end Byte

namespace Grammar

/-! ## Items before a separator -/

variable {options : Options} {sep : Byte} {rest more : Bytes}

theorem wordRun_separated (hrest : ∀ b ∈ rest, b.isWord = true) (hsep : sep.Separates) :
    wordRun (rest ++ sep :: more) = rest := by
  have hword : ¬ sep.isWord = true := by rcases hsep with rfl | rfl <;> decide
  rw [wordRun_append hrest, wordRun, List.takeWhile_cons_of_neg hword, List.append_nil]

theorem dropWhile_word_separated (hrest : ∀ b ∈ rest, b.isWord = true) (hsep : sep.Separates) :
    (rest ++ sep :: more).dropWhile Byte.isWord = sep :: more := by
  have hword : ¬ sep.isWord = true := by rcases hsep with rfl | rfl <;> decide
  rw [List.dropWhile_append_of_pos hrest, List.dropWhile_cons_of_neg hword]

/-- The second word is the one behind the separator. -/
theorem secondRun_separated (hrest : ∀ b ∈ rest, b.isWord = true) (hsep : sep.Separates) :
    secondRun (rest ++ sep :: more) = wordRun (more.dropWhile Byte.isBlank) := by
  have hblank : sep.isBlank = true := by rcases hsep with rfl | rfl <;> decide
  rw [secondRun, dropWhile_word_separated hrest hsep, List.dropWhile_cons_of_pos hblank]

/-- A word is refused neither for its own length nor for that of the next,
where both fit. -/
theorem refusal?_separated {b : Byte} (hdigit : b.isDigit = false)
    (hfits : Word.Fits options (b :: rest)) (hsep : sep.Separates)
    (hsecond : opens (b :: rest) = true →
      (wordRun (more.dropWhile Byte.isBlank)).length ≤ room options) :
    refusal? options b (rest ++ sep :: more) = none := by
  obtain ⟨hword, hrest⟩ := List.forall_mem_cons.mp hfits.all
  rw [refusal?, hdigit, hword, wordRun_separated hrest hsep, secondRun_separated hrest hsep]
  simp only [Bool.false_eq_true, if_false, if_true]
  rw [if_neg (Nat.not_lt.mpr hfits.within), if_neg]
  rintro ⟨hopens, hlong⟩
  exact absurd (hsecond hopens) (Nat.not_le.mpr hlong)

theorem item_identifier {b : Byte} (hdigit : b.isDigit = false)
    (hfits : Word.Fits options (b :: rest)) (hsep : sep.Separates)
    (hnone : Word.keyword? (b :: rest) = none) :
    item b (rest ++ sep :: more) =
      { kind := .identifier, text := Bytes.text (b :: rest), taken := rest.length } := by
  obtain ⟨hword, hrest⟩ := List.forall_mem_cons.mp hfits.all
  rw [item_of_word _ hword hdigit, word, wordRun_separated hrest hsep]
  simp only [hnone]

/-- A keyword is read back where the next word makes no compound with
it. -/
theorem item_keyword {b : Byte} {k : Keyword} (hdigit : b.isDigit = false)
    (hfits : Word.Fits options (b :: rest)) (hsep : sep.Separates)
    (hkeyword : Word.keyword? (b :: rest) = some k)
    (hnone : (Word.keyword? (wordRun (more.dropWhile Byte.isBlank))).bind
      (Compound.ofWords? k) = none) :
    item b (rest ++ sep :: more) =
      { kind := .keyword k, text := Bytes.text (b :: rest), taken := rest.length } := by
  obtain ⟨hword, hrest⟩ := List.forall_mem_cons.mp hfits.all
  rw [item_of_word _ hword hdigit, word, wordRun_separated hrest hsep,
    secondRun_separated hrest hsep]
  simp only [hkeyword, hnone]

/-- A compound is read back with its two words. -/
theorem item_compound {b : Byte} {c : Compound} {second : Bytes} (hdigit : b.isDigit = false)
    (hfits : Word.Fits options (b :: rest)) (hfirst : Word.keyword? (b :: rest) = some c.first)
    (hfits' : Word.Fits options second) (hsecond : Word.keyword? second = some c.second)
    (hsep : sep.Separates) :
    refusal? options b (rest ++ 32 :: second ++ sep :: more) = none ∧
      item b (rest ++ 32 :: second ++ sep :: more) =
        { kind := .compound c, text := Bytes.text (b :: rest) ++ " " ++ second.text,
          taken := (rest ++ 32 :: second).length } := by
  obtain ⟨hword, hrest⟩ := List.forall_mem_cons.mp hfits.all
  have hspace : Byte.Separates 32 := .inl rfl
  rw [List.append_assoc, List.cons_append]
  -- the second word has a first byte, and that is no blank
  obtain ⟨d, tail, rfl⟩ : ∃ d tail, second = d :: tail := by
    refine List.exists_cons_of_ne_nil fun hnil => ?_
    rw [hnil, Word.keyword?_nil] at hsecond
    cases hsecond
  have hd : d.isBlank = false := Byte.isBlank_of_isWord (hfits'.all d List.mem_cons_self)
  have hnot : ¬ d.isBlank = true := Bool.eq_false_iff.mp hd
  have hdrop : (d :: tail ++ sep :: more).dropWhile Byte.isBlank = d :: tail ++ sep :: more :=
    List.dropWhile_cons_of_neg hnot
  have hrun : wordRun ((d :: tail ++ sep :: more).dropWhile Byte.isBlank) = d :: tail := by
    rw [hdrop, wordRun_separated hfits'.all hsep]
  have hgap : gap (rest ++ 32 :: (d :: tail ++ sep :: more)) = [32] := by
    rw [gap, dropWhile_word_separated hrest hspace, List.takeWhile_cons_of_pos (by decide),
      List.cons_append, List.takeWhile_cons_of_neg hnot]
  refine ⟨refusal?_separated hdigit hfits hspace fun _ => hrun.symm ▸ hfits'.within, ?_⟩
  have hjoined : Compound.ofWords? c.first c.second = some c :=
    Compound.ofWords?_eq_some.mpr ⟨rfl, rfl⟩
  rw [item_of_word _ hword hdigit, word, wordRun_separated hrest hspace,
    secondRun_separated hrest hspace, hrun, hgap]
  simp only [hfirst, hsecond, Option.bind_some, hjoined, List.length_append, List.length_cons,
    List.length_nil]
  congr 1
  omega

/-- A number that is written in base ten is read back in base ten. -/
theorem item_decimal {b : Byte} (value : Int32) (hwrap : options.literalOverflow = .wrap)
    (hdecimal : Bytes.decimal value.toUInt32.toNat = b :: rest) (hsep : sep.Separates) :
    refusal? options b (rest ++ sep :: more) = none ∧
      item b (rest ++ sep :: more) =
        { kind := .number, text := Bytes.text (b :: rest), value, taken := rest.length } := by
  have hdigits : ∀ d ∈ b :: rest, d.isDigit = true := fun d hd =>
    Bytes.isDigit_of_mem_decimal (hdecimal ▸ hd)
  obtain ⟨hb, hrest⟩ := List.forall_mem_cons.mp hdigits
  have hstop : isDigitOrGap .decimal sep = false := by rcases hsep with rfl | rfl <;> rfl
  have hmarker : Radix.ofMarker sep = none := by rcases hsep with rfl | rfl <;> rfl
  have hfigure : figure b (rest ++ sep :: more) = ⟨.decimal, b :: rest, rest.length⟩ :=
    Numeral.figure_of_spells (.decimal hb (.of_digits hrest)) hstop (fun _ => hmarker) more
  have hvalue : (UInt32.ofNat (magnitude .decimal (b :: rest))).toInt32 = value := by
    rw [← hdecimal, Bytes.magnitude_decimal, UInt32.ofNat_toNat, Int32.toInt32_toUInt32]
  have hallowed : ¬ (figure b (rest ++ sep :: more)).Refused options := by
    rintro ⟨herror, -⟩
    rw [hwrap] at herror
    cases herror
  refine ⟨by rw [refusal?, if_pos hb, if_neg hallowed], ?_⟩
  rw [item_of_digit _ hb, hfigure, Figure.item, hvalue]

/-- An operator is read back by its two bytes. -/
theorem item_operator (options : Options) (o : Operator) :
    ∃ b c, o.bytes = [b, c] ∧ ∀ rest : Bytes, refusal? options b (c :: rest) = none ∧
      item b (c :: rest) = { kind := .operator o, taken := 1 } := by
  cases o
  case lessEqual => exact ⟨_, _, rfl, fun _ => ⟨rfl, rfl⟩⟩
  case notEqual => exact ⟨_, _, rfl, fun _ => ⟨rfl, rfl⟩⟩
  case greaterEqual => exact ⟨_, _, rfl, fun _ => ⟨rfl, rfl⟩⟩
  case shiftLeft => exact ⟨_, _, rfl, fun _ => ⟨rfl, rfl⟩⟩
  case shiftRight => exact ⟨_, _, rfl, fun _ => ⟨rfl, rfl⟩⟩

/-- A character is read back, and never as the first half of an
operator. -/
theorem item_character {b : Byte} (hword : b.isWord = false) (hsep : sep.Separates) :
    refusal? options b (sep :: more) = none ∧
      item b (sep :: more) = { kind := .character b } := by
  have hdigit : b.isDigit = false := by
    rw [← Bool.not_eq_true]
    intro hdigit
    rw [Byte.isWord_of_isDigit hdigit] at hword
    cases hword
  have hnone : operator? (b :: sep :: more) = none := by
    rw [Lexeme.operator?_eq, List.head?_cons, Option.bind_some]
    have hequal : sep ≠ Byte.equal := by rcases hsep with rfl | rfl <;> decide
    have hgreater : sep ≠ Byte.greater := by rcases hsep with rfl | rfl <;> decide
    have hless : sep ≠ Byte.less := by rcases hsep with rfl | rfl <;> decide
    simp only [Lexeme.operator?, if_neg hequal, if_neg hgreater, if_neg hless, ite_self]
  constructor
  · rw [refusal?, hdigit, hword]
    rfl
  · rw [item, hnone, hdigit, hword]
    rfl

end Grammar

/-! ## What a keyword looks ahead at -/

/-- Bytes begin with a word that is shown: a byte that is shown itself ends
it, and no blank where the word is empty. -/
def Bytes.Fronts (options : Options) (word bytes : Bytes) : Prop :=
  word.length ≤ room options ∧
    ∃ d rest, bytes = word ++ d :: rest ∧ d.isWord = false ∧
      ¬ OpensComment d rest.head? ∧ (word = [] → d.isBlank = false)

namespace Token.Legible

variable {options : Options} {t : Token} {sep : Byte} {more : Bytes}

/-- A token that is all one word is ended by the separator. -/
theorem fronts_word {b : Byte} {rest : Bytes} (hwritten : t.written = b :: rest)
    (hfits : Word.Fits options (b :: rest)) (hsep : sep.Separates) :
    Bytes.Fronts options (wordRun t.written) (t.written ++ sep :: more) := by
  have hword : sep.isWord = false := by rcases hsep with rfl | rfl <;> decide
  have hslash : sep ≠ Byte.slash := by rcases hsep with rfl | rfl <;> decide
  rw [hwritten, wordRun_of_all hfits.all]
  exact ⟨hfits.within, sep, more, rfl, hword, fun hopens => hslash hopens.1,
    fun hnil => nomatch hnil⟩

/-- A token that begins with no word is so by its own first byte. -/
theorem fronts_nil {b : Byte} {rest : Bytes} (hwritten : t.written = b :: rest)
    (hb : b.isWord = false) (hblank : b.isBlank = false) (halone : b = Byte.slash → rest = [])
    (hsep : sep.Separates) :
    Bytes.Fronts options (wordRun t.written) (t.written ++ sep :: more) := by
  have hslash : sep ≠ Byte.slash := by rcases hsep with rfl | rfl <;> decide
  have hasterisk : sep ≠ Byte.asterisk := by rcases hsep with rfl | rfl <;> decide
  have hrun : wordRun (b :: rest) = [] := List.takeWhile_cons_of_neg (Bool.eq_false_iff.mp hb)
  rw [hwritten, hrun]
  refine ⟨Nat.zero_le _, b, rest ++ sep :: more, rfl, hb, ?_, fun _ => hblank⟩
  rintro ⟨hslash', hnext⟩
  rw [halone hslash', List.nil_append, List.head?_cons] at hnext
  exact hnext.elim (fun h => hslash (Option.some.inj h)) fun h => hasterisk (Option.some.inj h)

/-- **A legible token begins with a word that is shown**, and that has room
where ten digits have. -/
theorem fronts (hlegible : t.Legible options) (hten : 10 ≤ options.maxToken)
    (hsep : sep.Separates) :
    Bytes.Fronts options (wordRun t.written) (t.written ++ sep :: more) := by
  cases hlegible with
  | identifier hdigit hfits => exact fronts_word (Bytes.ofText_text _) hfits hsep
  | keyword hdigit hfits => exact fronts_word (Bytes.ofText_text _) hfits hsep
  | @compound b rest second c offset hdigit hfits =>
    have hwritten : Token.written
        { kind := .compound c, text := Bytes.text (b :: rest) ++ " " ++ second.text, offset } =
        b :: rest ++ 32 :: second := Bytes.ofText_spaced _ _
    have hrun : wordRun (b :: rest ++ 32 :: second) = b :: rest :=
      wordRun_separated hfits.all (.inl rfl)
    rw [hwritten, hrun]
    refine ⟨hfits.within, 32, second ++ sep :: more, ?_, by decide,
      fun hopens => absurd hopens.1 (by decide), fun hnil => nomatch hnil⟩
    exact List.append_assoc _ _ _
  | @operator o offset =>
    obtain ⟨b, c, hbytes, -⟩ := item_operator options o
    have hplain : b.isWord = false ∧ b.isBlank = false ∧ b ≠ Byte.slash := by
      cases o <;> cases hbytes <;> decide
    have hwritten := (Token.written_operator o offset).trans hbytes
    exact fronts_nil hwritten hplain.1 hplain.2.1 (fun hb => absurd hb hplain.2.2) hsep
  | @number text value offset =>
    obtain ⟨b, rest, hdecimal⟩ := List.exists_cons_of_ne_nil
      (Bytes.decimal_ne_nil value.toUInt32.toNat)
    refine fronts_word hdecimal ⟨fun d hd => ?_, ?_⟩ hsep
    · exact Byte.isWord_of_isDigit (Bytes.isDigit_of_mem_decimal (hdecimal ▸ hd))
    · have hlength := Bytes.length_decimal_le value.toUInt32
      have hroom : options.maxToken ≤ room options := Nat.le_max_left _ _
      rw [hdecimal] at hlength
      omega
  | string hroom => exact fronts_nil rfl rfl rfl (fun hb => absurd hb (by decide)) hsep
  | character hblank hb hdouble hsingle => exact fronts_nil rfl hb hblank (fun _ => rfl) hsep

end Token.Legible

/-- A keyword stands alone before bytes if the word that comes first in
them, blanks aside, makes no compound with it and is not too long. -/
structure Keyword.Alone (options : Options) (k : Keyword) (bytes : Bytes) : Prop where
  apart : (Word.keyword? (wordRun (bytes.dropWhile Byte.isBlank))).bind
    (Compound.ofWords? k) = none
  room : (wordRun (bytes.dropWhile Byte.isBlank)).length ≤ room options

/-- The word that bytes begin with is what is shown first. -/
theorem Bytes.Fronts.wordRun_eq {options : Options} {word bytes : Bytes}
    (hfronts : Fronts options word bytes) (hword : ∀ b ∈ word, b.isWord = true) (column : Nat) :
    wordRun ((bytes.sights column).bytes.dropWhile Byte.isBlank) = word := by
  obtain ⟨-, d, rest, rfl, hd, hopens, hblank⟩ := hfronts
  have hslash : Byte.slash ∉ word := fun hmem => absurd (hword _ hmem) (by decide)
  let seen := (Bytes.sights (column + word.length + 1) rest).bytes
  have hshown : (Bytes.sights column (word ++ d :: rest)).bytes = word ++ d :: seen := by
    rw [bytes_sights_append column hslash, sights_cons _ hopens, Shown.bytes_cons]
  have hfirst : (word ++ d :: seen).dropWhile Byte.isBlank = word ++ d :: seen := by
    cases word with
    | nil => exact List.dropWhile_cons_of_neg (Bool.eq_false_iff.mp (hblank rfl))
    | cons b word =>
      have hb := Byte.isBlank_of_isWord (hword b List.mem_cons_self)
      exact List.dropWhile_cons_of_neg (Bool.eq_false_iff.mp hb)
  rw [hshown, hfirst, wordRun_append hword, wordRun,
    List.takeWhile_cons_of_neg (Bool.eq_false_iff.mp hd), List.append_nil]

/-- A keyword stands alone before a token that is apart from it. -/
theorem Keyword.Apart.alone {options : Options} {k : Keyword} {t : Token} {sep : Byte}
    (hapart : k.Apart t) (hlegible : t.Legible options) (hten : 10 ≤ options.maxToken)
    (hsep : sep.Separates) (column : Nat) (more : Bytes) :
    k.Alone options (Bytes.sights column (t.written ++ sep :: more)).bytes := by
  have hfronts : Bytes.Fronts options (wordRun t.written) (t.written ++ sep :: more) :=
    hlegible.fronts hten hsep
  have hrun := hfronts.wordRun_eq (List.all_eq_true.mp List.all_takeWhile) column
  exact ⟨by rw [hrun]; exact hapart, by rw [hrun]; exact hfronts.1⟩

/-- And before nothing. -/
theorem Keyword.alone_nil (options : Options) (k : Keyword) (column : Nat) :
    k.Alone options (Bytes.sights column []).bytes := by
  have hnothing : (Bytes.sights column []).bytes = [] := by
    rw [Bytes.sights, Head.sights_of_none (Head.next_of_ahead_nil rfl), Shown.bytes_nil]
  rw [hnothing]
  exact ⟨Word.bind_keyword?_nil k, Nat.zero_le _⟩

namespace Lexeme

variable {options : Options} {h : Head} {column : Nat} {sep : Byte} {more : Bytes}

/-! ## Tokens before a separator -/

/-- Before a token without quotes its bytes are shown, and then the
separator. -/
theorem shown_of_stands {b : Byte} {tail : Bytes} (hblank : b.isBlank = false)
    (hslash : Byte.slash ∉ tail) (halone : b = Byte.slash → tail = []) (hsep : sep.Separates)
    (hstands : h.Stands column (b :: tail ++ sep :: more)) :
    ∃ shown : Shown, h.sights.dropWhile (fun sight => sight.1.isBlank) = (b, column) :: shown ∧
      shown.bytes =
        tail ++ sep :: (Bytes.sights (column + (b :: tail).length + 1) more).bytes ∧
      shown.drop tail.length = Bytes.sights (column + (b :: tail).length) (sep :: more) := by
  have hslash' : Byte.slash ≠ sep := by rcases hsep with rfl | rfl <;> decide
  have hasterisk : Byte.asterisk ≠ sep := by rcases hsep with rfl | rfl <;> decide
  have hopens : ¬ Bytes.OpensComment b (tail ++ sep :: more).head? := by
    rintro ⟨hb, hnext⟩
    rw [halone hb, List.nil_append, List.head?_cons] at hnext
    exact hnext.elim (fun h => hslash' (Option.some.inj h).symm)
      fun h => hasterisk (Option.some.inj h).symm
  have hcolumn : column + 1 + tail.length = column + (b :: tail).length := by
    rw [List.length_cons]
    omega
  have hrest : Bytes.sights (column + 1) (tail ++ sep :: more) = tail.zipIdx (column + 1) ++
      Bytes.sights (column + (b :: tail).length) (sep :: more) := by
    rw [← hcolumn]
    exact Bytes.sights_append (column + 1) hslash _
  refine ⟨Bytes.sights (column + 1) (tail ++ sep :: more), ?_, ?_, ?_⟩
  · rw [hstands.sights, List.cons_append, Bytes.sights_cons column hopens, List.dropWhile_cons,
      if_neg (Bool.eq_false_iff.mp hblank)]
  · rw [hrest, Bytes.sights_cons _ fun hopens => hslash' hopens.1.symm, Shown.bytes,
      List.map_append, List.zipIdx_map_fst]
    rfl
  · rw [hrest, ← List.length_zipIdx (l := tail) (i := column + 1), List.drop_left]

/-- A token without quotes is read back as the item that the grammar has
there, and the head then stands before the separator. -/
theorem read_unquoted {b : Byte} {tail : Bytes} (hblank : b.isBlank = false)
    (hdouble : b ≠ Byte.doubleQuote) (hsingle : b ≠ Byte.singleQuote)
    (hslash : Byte.slash ∉ tail) (halone : b = Byte.slash → tail = []) (hsep : sep.Separates)
    (hstands : h.Stands column (b :: tail ++ sep :: more))
    (hkept : refusal? options b
      (tail ++ sep :: (Bytes.sights (column + (b :: tail).length + 1) more).bytes) = none)
    {found : Item}
    (hfound : item b
      (tail ++ sep :: (Bytes.sights (column + (b :: tail).length + 1) more).bytes) = found)
    (htaken : found.taken = tail.length) :
    ∃ h', read options h = .ok (found.token column) h' ∧
      h'.Stands (column + (b :: tail).length) (sep :: more) := by
  obtain ⟨shown, hshown, hbytes, hdrop⟩ := shown_of_stands hblank hslash halone hsep hstands
  have houtcome : outcome options b column shown =
      .ok (found.token column, Bytes.sights (column + (b :: tail).length) (sep :: more)) := by
    rw [outcome_eq_ok, hbytes, hfound, htaken, hdrop]
    exact ⟨hkept, rfl, rfl⟩
  have hends := ends_read_of_cons options hshown hdouble hsingle
  rw [houtcome] at hends
  obtain ⟨h', hread, hafter⟩ := hends
  exact ⟨h', hread, hstands.forward ((orderly_read options).along_of_ok hread) hafter⟩

/-- **A string in quotes is read back.** -/
theorem read_quoted {contents : Bytes} (hroom : contents.length ≤ options.maxToken)
    (hstands : h.Stands column (Quotation.quoted contents ++ sep :: more)) :
    ∃ h', read options h = .ok { kind := .string, text := contents.text, offset := column } h' ∧
      h'.Stands (column + (Quotation.quoted contents).length) (sep :: more) := by
  let inside := contents.flatMap Quotation.escape
  have hopens : ¬ Bytes.OpensComment Byte.doubleQuote
      (inside ++ [Byte.doubleQuote] ++ sep :: more).head? := fun h => absurd h.1 (by decide)
  have hopening : h.Stands column
      (Byte.doubleQuote :: (inside ++ [Byte.doubleQuote] ++ sep :: more)) := hstands
  obtain ⟨h₁, hskip, halong, hahead, hcolumn, hcomment⟩ :=
    hopening.skipBlanksFrom (by decide) hopens
  rw [List.append_assoc, List.singleton_append] at hahead
  let h₂ : Head :=
    { h₁.forward (inside.length + 1) with tokenStart := column, lastRead := .consumed }
  have hread := read_of_spells options hskip hahead (Quotation.spells_escape contents) hroom
  rw [hcolumn, Nat.add_sub_cancel] at hread
  have hlength : (Quotation.quoted contents).length = inside.length + 2 := by
    rw [Quotation.quoted, List.length_append, List.length_cons, List.length_singleton]
  have hsights : h₂.sights =
      Bytes.sights (column + (Quotation.quoted contents).length) (sep :: more) := by
    refine Head.sights_of_alike ?_ ?_ hcomment
    · show h₁.ahead.drop (inside.length + 1) = sep :: more
      rw [hahead, ← List.drop_drop, List.drop_left]
      rfl
    · show h₁.column + (inside.length + 1) = column + (Quotation.quoted contents).length
      rw [hcolumn, hlength]
      omega
  exact ⟨h₂, hread, hstands.forward ((orderly_read options).along_of_ok hread) hsights⟩

/-- A token that is written with word bytes and spaces is read back as the
item there. -/
theorem read_spelled {t : Token} {b : Byte} {tail : Bytes} (hwritten : t.written = b :: tail)
    (hb : b.isWord = true) (htail : ∀ c ∈ tail, c.isWord = true ∨ c = 32)
    (hsep : sep.Separates) (hstands : h.Stands column (t.written ++ sep :: more))
    (hread : ∀ seen, seen = (Bytes.sights (column + t.written.length + 1) more).bytes →
      refusal? options b (tail ++ sep :: seen) = none ∧
        ∃ text, item b (tail ++ sep :: seen) =
            { kind := t.kind, text, value := t.value, taken := tail.length } ∧
          (t.kind ≠ .number → text = t.text)) :
    ∃ u h', read options h = .ok u h' ∧ t.Same u ∧
      h'.Stands (column + t.written.length) (sep :: more) := by
  have hne (c : Byte) (hc : c.isWord = false) : b ≠ c := by
    rintro rfl
    rw [hb] at hc
    cases hc
  have hslash : Byte.slash ∉ tail := fun hmem =>
    (htail _ hmem).elim (fun h => absurd h (by decide)) fun h => absurd h (by decide)
  rw [hwritten] at hstands hread ⊢
  obtain ⟨hkept, text, hitem, htext⟩ := hread _ rfl
  obtain ⟨h', hrun, hstands'⟩ := read_unquoted (Byte.isBlank_of_isWord hb) (hne _ (by decide))
    (hne _ (by decide)) hslash (fun hb => absurd hb (hne _ (by decide))) hsep hstands hkept hitem
    rfl
  exact ⟨_, h', hrun, ⟨rfl, rfl, htext⟩, hstands'⟩

/-- An operator is read back. -/
theorem read_operator {o : Operator} (hsep : sep.Separates)
    (hstands : h.Stands column (o.bytes ++ sep :: more)) :
    ∃ h', read options h = .ok { kind := .operator o, offset := column } h' ∧
      h'.Stands (column + o.bytes.length) (sep :: more) := by
  obtain ⟨b, c, hbytes, hread⟩ := item_operator options o
  have hplain : b.isBlank = false ∧ b ≠ Byte.doubleQuote ∧ b ≠ Byte.singleQuote ∧
      Byte.slash ∉ [c] ∧ b ≠ Byte.slash := by
    cases o <;> cases hbytes <;> decide
  obtain ⟨hblank, hdouble, hsingle, hslash, hne⟩ := hplain
  rw [hbytes] at hstands ⊢
  obtain ⟨hkept, hitem⟩ := hread (sep :: (Bytes.sights (column + [b, c].length + 1) more).bytes)
  exact read_unquoted hblank hdouble hsingle hslash (fun hb => absurd hb hne) hsep hstands hkept
    hitem rfl

/-- So is a character, a slash too: a separator makes no comment of it. -/
theorem read_character {b : Byte} (hblank : b.isBlank = false) (hword : b.isWord = false)
    (hdouble : b ≠ Byte.doubleQuote) (hsingle : b ≠ Byte.singleQuote) (hsep : sep.Separates)
    (hstands : h.Stands column ([b] ++ sep :: more)) :
    ∃ h', read options h = .ok { kind := .character b, offset := column } h' ∧
      h'.Stands (column + [b].length) (sep :: more) := by
  let shown := (Bytes.sights (column + [b].length + 1) more).bytes
  obtain ⟨hkept, hitem⟩ : refusal? options b (sep :: shown) = none ∧
      item b (sep :: shown) = { kind := .character b } := item_character hword hsep
  exact read_unquoted hblank hdouble hsingle List.not_mem_nil (fun _ => rfl) hsep hstands hkept
    hitem rfl

/-- **A legible token is read back**, and the head then stands before the
separator. -/
theorem read_written {t : Token} (hlegible : t.Legible options)
    (hwrap : options.literalOverflow = .wrap) (hsep : sep.Separates)
    (hstands : h.Stands column (t.written ++ sep :: more))
    (halone : ∀ k, t.kind = .keyword k →
      k.Alone options (Bytes.sights (column + t.written.length + 1) more).bytes) :
    ∃ u h', read options h = .ok u h' ∧ t.Same u ∧
      h'.Stands (column + t.written.length) (sep :: more) := by
  cases hlegible with
  | @identifier b rest offset hdigit hfits hnone =>
    obtain ⟨hb, hrest⟩ := List.forall_mem_cons.mp hfits.all
    refine read_spelled (Bytes.ofText_text (b :: rest)) hb (fun c hc => .inl (hrest c hc)) hsep
      hstands fun seen hseen => ?_
    have hopens : ¬ opens (b :: rest) = true := by
      rw [opens, hnone]
      exact Bool.false_ne_true
    exact ⟨refusal?_separated hdigit hfits hsep fun h => absurd h hopens, _,
      item_identifier hdigit hfits hsep hnone, fun _ => rfl⟩
  | @keyword b rest k offset hdigit hfits hkeyword =>
    obtain ⟨hb, hrest⟩ := List.forall_mem_cons.mp hfits.all
    refine read_spelled (Bytes.ofText_text (b :: rest)) hb (fun c hc => .inl (hrest c hc)) hsep
      hstands fun seen hseen => ?_
    obtain ⟨hapart, hroom⟩ := hseen ▸ halone k rfl
    exact ⟨refusal?_separated hdigit hfits hsep fun _ => hroom, _,
      item_keyword hdigit hfits hsep hkeyword hapart, fun _ => rfl⟩
  | @compound b rest second c offset hdigit hfits hfirst hfits' hsecond =>
    obtain ⟨hb, hrest⟩ := List.forall_mem_cons.mp hfits.all
    have htail : ∀ d ∈ rest ++ 32 :: second, d.isWord = true ∨ d = 32 := by
      intro d hd
      rcases List.mem_append.mp hd with hd | hd
      · exact .inl (hrest d hd)
      rcases List.mem_cons.mp hd with hd | hd
      · exact .inr hd
      · exact .inl (hfits'.all d hd)
    refine read_spelled (Bytes.ofText_spaced (b :: rest) second) hb htail hsep hstands
      fun seen hseen => ?_
    obtain ⟨hkept, hitem⟩ := item_compound hdigit hfits hfirst hfits' hsecond hsep
    exact ⟨hkept, _, hitem, fun _ => rfl⟩
  | @number text value offset =>
    obtain ⟨b, rest, hdecimal⟩ := List.exists_cons_of_ne_nil
      (Bytes.decimal_ne_nil value.toUInt32.toNat)
    have hdigits : ∀ d ∈ b :: rest, d.isWord = true := fun d hd =>
      Byte.isWord_of_isDigit (Bytes.isDigit_of_mem_decimal (hdecimal ▸ hd))
    obtain ⟨hb, hrest⟩ := List.forall_mem_cons.mp hdigits
    refine read_spelled hdecimal hb (fun c hc => .inl (hrest c hc)) hsep hstands
      fun seen hseen => ?_
    obtain ⟨hkept, hitem⟩ := item_decimal value hwrap hdecimal hsep
    exact ⟨hkept, _, hitem, fun hnumber => absurd rfl hnumber⟩
  | @operator o offset =>
    rw [Token.written_operator] at hstands ⊢
    obtain ⟨h', hrun, hstands'⟩ := read_operator hsep hstands
    exact ⟨_, h', hrun, ⟨rfl, rfl, fun _ => rfl⟩, hstands'⟩
  | @string contents offset hroom =>
    have hwritten : Token.written { kind := .string, text := contents.text, offset } =
        Quotation.quoted contents := congrArg Quotation.quoted (Bytes.ofText_text contents)
    rw [hwritten] at hstands ⊢
    obtain ⟨h', hrun, hstands'⟩ := read_quoted hroom hstands
    exact ⟨_, h', hrun, ⟨rfl, rfl, fun _ => rfl⟩, hstands'⟩
  | @character b offset hblank hword hdouble hsingle =>
    obtain ⟨h', hrun, hstands'⟩ := read_character hblank hword hdouble hsingle hsep hstands
    exact ⟨_, h', hrun, ⟨rfl, rfl, fun _ => rfl⟩, hstands'⟩

end Lexeme

end BasicLexer
