import BasicLexer.Proofs.Reading.ReadBack

/-!
# Scanner — number literals

A number literal has its mathematical value: in 32 bits and with a sign, and
where numbers out of range are refused, as it is or not at all
(`Scan.getToken_of_numeral`).
-/

namespace BasicLexer

open Reader Grammar

/-- **A number that is spelled is read** as the figure of its base and its
digits, if a byte comes after it that does not go on with it and is no
slash. That byte is shown next. -/
theorem Lexeme.ends_read_of_spells (options : Options) {h : Head} {f : Figure}
    {literal more : Bytes} {c : Byte} (hcomment : h.inComment = false)
    (hahead : h.ahead = literal ++ c :: more) (hspells : Numeral.Spells f.radix literal f.digits)
    (htaken : literal.length = f.taken + 1) (hstop : isDigitOrGap f.radix c = false)
    (hslash : c ≠ Byte.slash) (hmarker : literal = [Byte.zero] → Radix.ofMarker c = none) :
    Ends (read options h)
      (if f.Refused options then .error (.numberOutOfRange f.digits.text)
      else .ok (f.item.token h.column,
        Bytes.sights (h.column + literal.length) (c :: more))) := by
  have halike : h.sights = Bytes.sights h.column (literal ++ c :: more) :=
    Head.sights_of_alike hahead rfl hcomment
  rw [Bytes.sights_append h.column hspells.slash_not_mem] at halike
  have hopens : ¬ Bytes.OpensComment c more.head? := fun hopens => hslash hopens.1
  obtain ⟨others, hbehind⟩ : ∃ others, Bytes.sights (h.column + literal.length) (c :: more) =
      (c, h.column + literal.length) :: others := ⟨_, Bytes.sights_cons _ hopens⟩
  rw [hbehind] at halike ⊢
  obtain ⟨b, tail, rfl, hdigit⟩ := hspells.exists_cons
  rw [List.length_cons, Nat.add_right_cancel_iff] at htaken
  have hblank : ¬ b.isBlank = true :=
    Bool.eq_false_iff.mp (Byte.isBlank_of_isWord (Byte.isWord_of_isDigit hdigit))
  have hne (d : Byte) (hd : d.isDigit = false) : b ≠ d := by
    rintro rfl
    rw [hdigit] at hd
    cases hd
  rw [List.zipIdx_cons, List.cons_append] at halike
  generalize hrest : tail.zipIdx (h.column + 1) ++ (c, h.column + (b :: tail).length) :: others =
    rest at halike
  have hbytes : Shown.bytes rest = tail ++ c :: Shown.bytes others := by
    rw [← hrest, Shown.bytes, List.map_append, List.zipIdx_map_fst]
    rfl
  have hdrop : rest.drop f.taken = (c, h.column + (b :: tail).length) :: others := by
    rw [← hrest]
    exact List.drop_left' (by rw [List.length_zipIdx, htaken])
  have hshown : h.sights.dropWhile (fun sight => sight.1.isBlank) = (b, h.column) :: rest := by
    rw [halike, List.dropWhile_cons, if_neg hblank]
  have hends := ends_read_of_cons options hshown (hne _ (by decide)) (hne _ (by decide))
  rw [outcome_of_digit hdigit, hbytes, Numeral.figure_of_spells hspells hstop hmarker,
    htaken] at hends
  dsimp only at hends
  rwa [hdrop] at hends

namespace Scan

variable {s : Scanner}

/-- **A number literal has its mathematical value.** Let digits of a base, as
many as there may be, be written at the head, outside comments, and behind
them a byte that neither goes on with them nor is a slash. Where numbers wrap,
and where the number is below the bound of its base, the next token is the
number: its text are the digits alone, its value is what they write, in 32
bits and with a sign, and what comes behind it is shown next. Where numbers
are checked and it is not below the bound, it fails as out of range. -/
theorem getToken_of_numeral {radix : Radix} {literal digits more : Bytes} {c : Byte}
    (hsaved : s.saved = none) (hcomment : s.head.inComment = false)
    (hahead : s.head.ahead = literal ++ c :: more)
    (hspells : Numeral.Spells radix literal digits) (hdigit : radix.isDigit c = false)
    (hgap : c ≠ Byte.underscore) (hslash : c ≠ Byte.slash)
    (hmarker : literal = [Byte.zero] → c ∉ [120, 88, 98, 66]) :
    (s.options.literalOverflow = .wrap ∨ magnitude radix digits < bound radix →
      ∃ value h',
        getToken s =
          .ok { kind := .number, text := digits.text, value, offset := s.head.column }
            { s with head := h' } ∧
        value.toInt = (magnitude radix digits : Int).bmod (2 ^ 32) ∧
        h'.sights = Bytes.sights (s.head.column + literal.length) (c :: more)) ∧
    (s.options.literalOverflow = .error ∧ bound radix ≤ magnitude radix digits →
      ∃ d s', getToken s = .error (.reported d) s' ∧ d.code = 1006) := by
  let f : Figure := ⟨radix, digits, literal.length - 1⟩
  obtain ⟨b, tail, hcons, -⟩ := hspells.exists_cons
  have htaken : literal.length = f.taken + 1 := by simp [f, hcons]
  have hstop : isDigitOrGap radix c = false := by
    rw [isDigitOrGap, hdigit, Bool.false_or, beq_eq_false_iff_ne]
    exact hgap
  have hnone : literal = [Byte.zero] → Radix.ofMarker c = none := by
    intro hzero
    have hc := hmarker hzero
    simp only [List.mem_cons, List.not_mem_nil, or_false, not_or] at hc
    rw [Radix.ofMarker, if_neg (by tauto), if_neg (by tauto)]
  have hends := Lexeme.ends_read_of_spells s.options (f := f) hcomment hahead hspells htaken hstop
    hslash hnone
  constructor
  · intro hkept
    have hallowed : ¬ f.Refused s.options := by
      rintro ⟨herror, hbound⟩
      rcases hkept with hwrap | hlt
      · rw [hwrap] at herror
        cases herror
      · exact Nat.not_lt.mpr hbound hlt
    rw [if_neg hallowed] at hends
    obtain ⟨h', hread, hsights⟩ := hends
    exact ⟨f.item.value, h', getToken_of_read hsaved hread, f.toInt_value, hsights⟩
  · intro (hrefused : f.Refused s.options)
    rw [if_pos hrefused] at hends
    obtain ⟨h', hread⟩ := hends
    exact ⟨_, _, getToken_of_refused hsaved hread, rfl⟩

/-- `0X1_000000FF_`, of nine digits. -/
def nineDigits : Bytes := [48, 88, 49, 95, 48, 48, 48, 48, 48, 48, 70, 70, 95]

theorem spells_nineDigits :
    Numeral.Spells .hex nineDigits [49, 48, 48, 48, 48, 48, 48, 70, 70] :=
  .hex (.inr rfl) <| .digit rfl <| .gap <| .digit rfl <| .digit rfl <| .digit rfl <|
    .digit rfl <| .digit rfl <| .digit rfl <| .digit rfl <| .digit rfl <| .gap .nil

/-- A scanner before these digits and a point. -/
def beforeNineDigits (policy : Overflow) : Scanner :=
  { Scanner.start { literalOverflow := policy } (.ofTexts []) (.ofBytes []) with
    head := { ahead := nineDigits ++ 46 :: [10] } }

/-- Where numbers wrap it is 255, and where they are checked it is none. -/
theorem getToken_nineDigits :
    Numeral.Spells .hex nineDigits [49, 48, 48, 48, 48, 48, 48, 70, 70] ∧
      Radix.isDigit .hex 46 = false ∧
      (∃ value h',
        getToken (beforeNineDigits .wrap) =
          .ok { kind := .number, text := "1000000FF", value, offset := 0 }
            { beforeNineDigits .wrap with head := h' } ∧
        value.toInt = 255 ∧ h'.sights = Bytes.sights 13 [46, 10]) ∧
      ∃ d s', getToken (beforeNineDigits .error) = .error (.reported d) s' ∧ d.code = 1006 := by
  have hpoint : Radix.isDigit .hex 46 = false := rfl
  have hmarker : nineDigits = [Byte.zero] → (46 : Byte) ∉ ([120, 88, 98, 66] : Bytes) := by decide
  have hvalue : magnitude .hex [49, 48, 48, 48, 48, 48, 48, 70, 70] = 2 ^ 32 + 255 := by decide
  have hwrap := (getToken_of_numeral (s := beforeNineDigits .wrap) rfl rfl rfl spells_nineDigits
    hpoint (by decide) (by decide) hmarker).1 (.inl rfl)
  have herror := (getToken_of_numeral (s := beforeNineDigits .error) rfl rfl rfl spells_nineDigits
    hpoint (by decide) (by decide) hmarker).2 ⟨rfl, by rw [hvalue]; decide⟩
  rw [hvalue] at hwrap
  obtain ⟨value, h', hget, htoInt, hsights⟩ := hwrap
  have htext : Bytes.text [49, 48, 48, 48, 48, 48, 48, 70, 70] = "1000000FF" := by decide
  rw [htext] at hget
  exact ⟨spells_nineDigits, hpoint, ⟨value, h', hget, htoInt, hsights⟩, herror⟩

end Scan

end BasicLexer
