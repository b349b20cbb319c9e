import Mathlib.Data.List.Basic
import BasicLexer.Proofs.Json.Grammar

/-!
# JSON — lexemes as they are written

What the grammar lets be written for a string or for a number is read as that
string or number, and what follows is left (`Json.lexes_string`,
`Json.lexes_number`). A string ends at its quote, whatever follows; a number is
over where something follows that cannot belong to it.
-/

namespace BasicLexer

namespace Json

/-- A lexeme is read off a text, up to where the rest begins. -/
inductive Lexes (x : Lexeme) : List Char → List Char → Prop
  | intro {c : Char} {s rest : List Char} (hblank : isBlank c = false)
      (hlexeme : lexeme? c s = some (x, rest)) : Lexes x (c :: s) rest

variable {found : List Lexeme} {x : Lexeme} {s rest : List Char}

theorem lexemesFrom_blank {gap : List Char} (hgap : Blank gap) :
    lexemesFrom found (gap ++ rest) = lexemesFrom found rest := by
  have hblanks : ∀ c ∈ [' ', '\t', '\n', '\r'], isBlank c = true :=
    List.all_eq_true.mp (by decide)
  induction gap with
  | nil => rfl
  | cons c gap ih =>
    obtain ⟨hc, hgap⟩ := List.forall_mem_cons.mp hgap
    rw [List.cons_append, lexemesFrom, if_pos (hblanks c hc), ih hgap]

theorem lexemesFrom_lexes (hx : Lexes x s rest) :
    lexemesFrom found s = lexemesFrom (x :: found) rest := by
  cases hx with
  | intro hblank hlexeme =>
    have hnone : ¬ isBlank _ = true := ne_true_of_eq_false hblank
    rw [lexemesFrom, if_neg hnone]
    cases hread : lexeme? _ _ with
    | none => exact absurd (hlexeme.symm.trans hread) (Option.some_ne_none _)
    | some read =>
      cases hlexeme.symm.trans hread
      rfl

/-! ## Strings -/

section Strings

variable {piece : Piece} {pieces found : List Piece} {c : Char} {n : Nat}
  {written text digits rest : List Char}

theorem hexValue?_of_writes {d : Nat} (hc : WritesDigit d c) : hexValue? c = some d := by
  have hall : ∀ d : Fin 16, hexValue? d.val.digitChar = some d.val ∧
      hexValue? d.val.digitChar.toUpper = some d.val := by decide
  obtain ⟨hd, rfl | rfl⟩ := hc
  · exact (hall ⟨d, hd⟩).1
  · exact (hall ⟨d, hd⟩).2

theorem stringFrom_unit (hdigits : WritesUnit n digits) :
    stringFrom found ('\\' :: 'u' :: (digits ++ rest)) = stringFrom (.unit n :: found) rest := by
  cases hdigits with
  | digits ha hb hc hd =>
    rw [List.cons_append, List.cons_append, List.cons_append, List.cons_append, List.nil_append,
      stringFrom, unit?, hexValue?_of_writes ha, hexValue?_of_writes hb, hexValue?_of_writes hc,
      hexValue?_of_writes hd]
    rfl

/-- A piece is read as it is written. -/
theorem stringFrom_piece (hpiece : WritesPiece piece written) :
    stringFrom found (written ++ rest) = stringFrom (piece :: found) rest := by
  cases hpiece with
  | plain hcontrol hquote hbackslash =>
    rw [List.cons_append, List.nil_append, stringFrom, if_neg (Nat.not_lt.mpr hcontrol)]
    · exact fun h => absurd h hquote
    · intro a b c d rest h
      exact absurd h hbackslash
    · intro c rest h
      exact absurd h hbackslash
  | short hescape =>
    have hshort : ∀ p ∈ shortEscapes, p.2 ≠ 'u' ∧ escaped? p.2 = some p.1 := by decide
    obtain ⟨hunit, hescaped⟩ := hshort _ hescape
    rw [List.cons_append, List.cons_append, List.nil_append, stringFrom, hescaped]
    · rfl
    · intro a b c d rest h
      exact absurd h hunit
  | unit hdigits => exact stringFrom_unit hdigits

/-- **The inside of a string** is read up to the quote. -/
theorem stringFrom_pieces (hpieces : WritesPieces pieces written) :
    stringFrom found (written ++ '"' :: rest) = some (found.reverse ++ pieces, rest) := by
  induction hpieces generalizing found with
  | nil => rw [List.nil_append, stringFrom, List.append_nil]
  | cons hpiece _ ih =>
    rw [List.append_assoc, stringFrom_piece hpiece, ih, List.reverse_cons, List.append_assoc]
    rfl

theorem lexes_string (hpieces : WritesPieces pieces written) :
    Lexes (.string pieces) (quoted written ++ rest) rest := by
  rw [quoted, List.cons_append, List.append_assoc]
  exact .intro rfl (congrArg (Option.map _) (stringFrom_pieces hpieces))

theorem WritesPieces.append {pieces' : List Piece} {written' : List Char}
    (hpieces : WritesPieces pieces written) (hpieces' : WritesPieces pieces' written') :
    WritesPieces (pieces ++ pieces') (written ++ written') := by
  induction hpieces with
  | nil => exact hpieces'
  | cons hpiece _ ih =>
    rw [List.append_assoc]
    exact .cons hpiece ih

theorem WritesPieces.singleton (hpiece : WritesPiece piece written) :
    WritesPieces [piece] written := List.append_nil written ▸ .cons hpiece .nil

/-- A character is no half of a pair. -/
theorem isHalf_toNat (c : Char) : isHigh c.toNat = false ∧ isLow c.toNat = false := by
  have hvalid : c.toNat < 0xd800 ∨ 0xdfff < c.toNat ∧ c.toNat < 0x110000 := c.valid
  simp only [isHigh, isLow, Bool.and_eq_false_iff, decide_eq_false_iff_not]
  omega

/-- A character is written in pieces that say it, whatever follows them. -/
theorem WritesChar.exists_pieces (hc : WritesChar c written) :
    ∃ pieces, WritesPieces pieces written ∧
      ∀ rest, decode? (pieces ++ rest) = (decode? rest).map (c :: ·) := by
  cases hc with
  | piece hpiece => exact ⟨[.char c], .singleton hpiece, fun rest => rfl⟩
  | unit hdigits =>
    obtain ⟨hhigh, hlow⟩ := isHalf_toNat c
    refine ⟨[.unit c.toNat], .singleton (.unit hdigits), fun rest => ?_⟩
    rw [List.cons_append, List.nil_append, decode?.eq_def]
    dsimp only
    rw [hhigh, hlow, Char.ofNat_toNat]
    rfl
  | @pair high low _ _ hchar hhigh hlow hdigits hdigits' =>
    have hisHigh : isHigh (0xd800 + high) = true := by
      simp only [isHigh, Bool.and_eq_true, decide_eq_true_eq]
      omega
    have hisLow : isLow (0xdc00 + low) = true := by
      simp only [isLow, Bool.and_eq_true, decide_eq_true_eq]
      omega
    refine ⟨[.unit (0xd800 + high), .unit (0xdc00 + low)],
      .append (.singleton (.unit hdigits)) (.singleton (.unit hdigits')), fun rest => ?_⟩
    rw [List.cons_append, List.cons_append, List.nil_append, decode?.eq_def]
    dsimp only
    rw [hisHigh, hisLow, if_pos rfl, if_pos rfl, Nat.add_sub_cancel_left, Nat.add_sub_cancel_left,
      ← hchar, Char.ofNat_toNat]

/-- **A text is read back** from the pieces it is written in. -/
theorem WritesText.exists_pieces (htext : WritesText text written) :
    ∃ pieces, WritesPieces pieces written ∧ decode? pieces = some text := by
  induction htext with
  | nil => exact ⟨[], .nil, rfl⟩
  | cons hchar _ ih =>
    obtain ⟨pieces, hpieces, hdecode⟩ := hchar.exists_pieces
    obtain ⟨pieces', hpieces', hrest⟩ := ih
    refine ⟨pieces ++ pieces', hpieces.append hpieces', ?_⟩
    rw [hdecode, hrest]
    rfl

end Strings

/-! ## Numbers -/

section Numbers

variable {digits' fraction exponent written rest : List Char} {n : Number}

/-- What may follow a value. -/
def Ends (rest : List Char) : Prop :=
  ∀ c ∈ rest.head?, c ∈ [' ', '\t', '\n', '\r', ',', ']', '\x7d']

/-- None of that goes on with a number. -/
theorem Ends.not_number (hrest : Ends rest) : ∀ c ∈ rest.head?,
    c.isDigit = false ∧ c ≠ '.' ∧ c ≠ 'e' ∧ c ≠ 'E' := by
  have hall : ∀ c ∈ [' ', '\t', '\n', '\r', ',', ']', '\x7d'],
      c.isDigit = false ∧ c ≠ '.' ∧ c ≠ 'e' ∧ c ≠ 'E' := by simp
  exact fun c hc => hall c (hrest c hc)

theorem digits_append (hdigits : ∀ c ∈ digits', c.isDigit = true)
    (hrest : ∀ c ∈ rest.head?, c.isDigit = false) : digits (digits' ++ rest) = (digits', rest) := by
  have hstop : rest.takeWhile Char.isDigit = [] ∧ rest.dropWhile Char.isDigit = rest := by
    cases rest with
    | nil => exact ⟨rfl, rfl⟩
    | cons c rest =>
      rw [List.takeWhile_cons, List.dropWhile_cons, hrest c rfl]
      exact ⟨rfl, rfl⟩
  rw [digits, List.takeWhile_append_of_pos hdigits, List.dropWhile_append_of_pos hdigits, hstop.1,
    hstop.2, List.append_nil]

theorem whole?_append (hwhole : WritesWhole digits')
    (hrest : ∀ c ∈ rest.head?, c.isDigit = false) :
    whole? (digits' ++ rest) = some (digits', rest) := by
  cases hwhole with
  | zero => rfl
  | @positive d more hd hdigits =>
    have hread := digits_append hdigits.2 hrest
    rw [List.cons_append] at hread ⊢
    rw [whole?, hread]
    exact fun _ h => hd (List.cons.inj h).1

theorem fraction?_append {written : List Char} (hfraction : WritesFraction fraction written)
    (hrest : ∀ c ∈ rest.head?, c.isDigit = false ∧ c ≠ '.') :
    fraction? (written ++ rest) = some (fraction, rest) := by
  cases hfraction with
  | none =>
    rw [List.nil_append, fraction?]
    rintro after rfl
    exact (hrest _ rfl).2 rfl
  | some hdigits =>
    have hread := digits_append hdigits.2 fun c hc => (hrest c hc).1
    rw [List.cons_append, fraction?, hread]
    cases fraction with
    | nil => exact absurd rfl hdigits.1
    | cons d more => rfl

theorem sign_append {sign' : Option Char} {digits' : List Char}
    (hsign : ∀ s ∈ sign', s = '+' ∨ s = '-') (hdigits : Digits digits') :
    sign (sign'.toList ++ digits' ++ rest) = (sign', digits' ++ rest) := by
  cases sign' with
  | some s => rcases hsign s rfl with rfl | rfl <;> rfl
  | none =>
    cases digits' with
    | nil => exact absurd rfl hdigits.1
    | cons d more =>
      have hd := hdigits.2 d List.mem_cons_self
      rw [Option.toList_none, List.nil_append, List.cons_append, sign]
      · rintro _ h
        rw [(List.cons.inj h).1] at hd
        exact absurd hd (by decide)
      · rintro _ h
        rw [(List.cons.inj h).1] at hd
        exact absurd hd (by decide)

theorem exponent?_append {sign' : Option Char} {written : List Char}
    (hexponent : WritesExponent sign' exponent written)
    (hrest : ∀ c ∈ rest.head?, c.isDigit = false ∧ c ≠ 'e' ∧ c ≠ 'E') :
    exponent? (written ++ rest) = some ((sign', exponent), rest) := by
  cases hexponent with
  | none =>
    cases rest with
    | nil => rfl
    | cons c rest =>
      obtain ⟨-, he, hE⟩ := hrest c rfl
      rw [List.nil_append, exponent?, if_neg (not_or.mpr ⟨he, hE⟩)]
  | some he hsign hdigits =>
    have hread := digits_append hdigits.2 fun c hc => (hrest c hc).1
    rw [List.cons_append, exponent?, if_pos he, sign_append hsign hdigits, hread]
    cases exponent with
    | nil => exact absurd rfl hdigits.1
    | cons d more => rfl

/-- Where the exponent begins, or what follows if there is none. -/
theorem head?_exponent {sign' : Option Char} {written : List Char}
    (hexponent : WritesExponent sign' exponent written) (hrest : Ends rest) :
    ∀ c ∈ (written ++ rest).head?, c.isDigit = false ∧ c ≠ '.' := by
  cases hexponent with
  | none => exact fun c hc => ⟨(hrest.not_number c hc).1, (hrest.not_number c hc).2.1⟩
  | some he =>
    rintro c ⟨⟩
    rcases he with rfl | rfl <;> decide

/-- Where the point is, or what follows if there is none. -/
theorem head?_fraction {written more : List Char} (hfraction : WritesFraction fraction written)
    (hmore : ∀ c ∈ more.head?, c.isDigit = false) :
    ∀ c ∈ (written ++ more).head?, c.isDigit = false := by
  cases hfraction with
  | none => exact hmore
  | some =>
    rintro c ⟨⟩
    decide

theorem unsigned?_append (hn : WritesUnsigned n written) (hrest : Ends rest) :
    unsigned? n.negative (written ++ rest) = some (n, rest) := by
  obtain ⟨fraction, exponent, hwhole, hfraction, hexponent, rfl⟩ := hn
  have hafter := head?_exponent hexponent hrest
  have hpoint := head?_fraction hfraction fun c hc => (hafter c hc).1
  have hends := fun c hc =>
    have hnot := hrest.not_number c hc
    And.intro hnot.1 hnot.2.2
  rw [List.append_assoc, List.append_assoc, unsigned?, whole?_append hwhole hpoint]
  dsimp only [Option.bind_eq_bind, Option.bind_some]
  rw [fraction?_append hfraction hafter]
  dsimp only [Option.bind_some]
  rw [exponent?_append hexponent hends]
  rfl

/-- A digit begins a number without a sign. -/
theorem lexeme?_digit {c : Char} (hc : c.isDigit = true) (s : List Char) :
    lexeme? c s = (unsigned? false (c :: s)).map fun (n, after) => (.number n, after) := by
  rw [lexeme?, if_pos hc]
  all_goals
    intros
    subst_vars
    exact absurd hc (by decide)

theorem exists_digit_of_writesUnsigned (hn : WritesUnsigned n written) :
    ∃ c more, written = c :: more ∧ c.isDigit = true := by
  obtain ⟨fraction, exponent, hwhole, -, -, rfl⟩ := hn
  generalize n.whole = whole at hwhole
  cases hwhole with
  | zero => exact ⟨_, _, rfl, rfl⟩
  | positive _ hdigits => exact ⟨_, _, rfl, hdigits.2 _ List.mem_cons_self⟩

/-- **A number is read as it is written**, if nothing follows that could be
part of it. -/
theorem lexes_number (hn : WritesNumber n written) (hrest : Ends rest) :
    Lexes (.number n) (written ++ rest) rest := by
  cases hn with
  | unsigned hsign hn =>
    have hread := unsigned?_append hn hrest
    obtain ⟨c, more, rfl, hc⟩ := exists_digit_of_writesUnsigned hn
    have hblank : isBlank c = false := by
      rw [← Bool.not_eq_true]
      intro hblank
      simp only [isBlank, Bool.or_eq_true, decide_eq_true_eq] at hblank
      rcases hblank with ((rfl | rfl) | rfl) | rfl <;> exact absurd hc (by decide)
    rw [hsign, List.cons_append] at hread
    rw [List.cons_append]
    refine .intro hblank ?_
    rw [lexeme?_digit hc, hread]
    rfl
  | negative hsign hn =>
    rw [List.cons_append]
    refine .intro rfl ?_
    rw [lexeme?, ← hsign, unsigned?_append hn hrest]
    rfl

end Numbers

end Json

end BasicLexer
