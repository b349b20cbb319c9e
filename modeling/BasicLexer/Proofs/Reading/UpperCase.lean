import BasicLexer.Proofs.Reading.Literals
import BasicLexer.Proofs.Reading.Respelled

/-!
# Reading — a line in capital letters

A line without quotes in capital letters is read in step with the line as it
stands: comments and blanks are where they were, and every byte that is seen
is the capital of that seen before (`Head.next_upper`). A literal is in
neither, for the quote that would close it is not there. So capitals are one
way of spelling a line (`Respelling.capitals`).
-/

namespace BasicLexer

/-! ## What is seen -/

/-- What is seen of a line in capital letters. -/
def Sight.upper : Sight → Sight
  | byte b reach => byte b.upper reach
  | exhausted => exhausted
  | hidden isOpen => hidden isOpen

theorem Sight.ofRest_upper (inComment : Bool) (passed : Nat) (rest : Bytes) :
    ofRest inComment passed rest.upper = (ofRest inComment passed rest).upper := by
  have hslash (b : Byte) : b.upper = Byte.slash ↔ b = Byte.slash := Byte.upper_eq_iff rfl
  have hasterisk (b : Byte) : b.upper = Byte.asterisk ↔ b = Byte.asterisk := Byte.upper_eq_iff rfl
  fun_induction ofRest inComment passed rest with
  | case1 | case2 | case5 | case6 => rfl
  | case3 passed b c rest hcloses ih =>
    simp only [Bytes.upper_cons, ofRest, hslash, hasterisk, if_pos hcloses, ih]
  | case4 passed b c rest hcloses ih =>
    simp only [Bytes.upper_cons, ofRest, hslash, hasterisk, if_neg hcloses, ← ih]
  | case7 passed b c rest hline =>
    simp only [Bytes.upper_cons, ofRest, hslash, if_pos hline, upper]
  | case8 passed b c rest hline hblock ih =>
    simp only [Bytes.upper_cons, ofRest, hslash, hasterisk, if_neg hline, if_pos hblock, ih]
  | case9 passed b c rest hline hblock =>
    simp only [Bytes.upper_cons, ofRest, hslash, hasterisk, if_neg hline, if_neg hblock, upper]

namespace Head

/-- The head at the same place of the line in capital letters. -/
def upper (h : Head) : Head := { h with behind := h.behind.upper, ahead := h.ahead.upper }

theorem forward_upper (h : Head) (n : Nat) : h.upper.forward n = (h.forward n).upper := by
  simp [forward, upper, Bytes.upper, List.reverseAux_eq, List.map_take, List.map_drop]

theorem next_upper (h : Head) : h.upper.next = (h.next.1.map Byte.upper, h.next.2.upper) := by
  have hsight : Sight.ofRest h.upper.inComment 0 h.upper.ahead =
      (Sight.ofRest h.inComment 0 h.ahead).upper := Sight.ofRest_upper _ _ _
  have hlength : h.upper.ahead.length = h.ahead.length := List.length_map _
  have hline : h.upper.lineLength = h.lineLength := by
    simp [lineLength, upper, Bytes.upper]
  rw [next, next, hsight]
  cases Sight.ofRest h.inComment 0 h.ahead with
  | byte b reach =>
    simp only [Sight.upper, forward_upper]
    rfl
  | exhausted =>
    simp only [Sight.upper, forward_upper, hlength]
    rfl
  | hidden isOpen =>
    simp only [Sight.upper, toEnd, forward_upper, hlength, hline]
    rfl

theorem retract_upper (h : Head) : h.upper.retract = h.retract.upper := by
  obtain ⟨behind, ahead, column, tokenStart, inComment, lastRead⟩ := h
  cases lastRead <;> cases behind <;> rfl

end Head

namespace Reader

theorem skipBlanksFrom_upper (h : Head) :
    skipBlanksFrom h.upper =
      ((skipBlanksFrom h).1.map Byte.upper, (skipBlanksFrom h).2.upper) := by
  fun_induction skipBlanksFrom h with
  | case1 h b hnext hblank ih =>
    have hnext' : h.upper.next.1 = some b.upper := by rw [Head.next_upper, hnext]; rfl
    rw [skipBlanksFrom_of_some hnext', Byte.isBlank_upper, if_pos hblank, Head.next_upper, ih]
  | case2 h b hnext hblank =>
    have hnext' : h.upper.next.1 = some b.upper := by rw [Head.next_upper, hnext]; rfl
    rw [skipBlanksFrom_of_some hnext', Byte.isBlank_upper, if_neg hblank, Head.next_upper]
    rfl
  | case3 h hnext =>
    have hnext' : h.upper.next.1 = none := by rw [Head.next_upper, hnext]; rfl
    rw [skipBlanksFrom_of_none hnext', Head.next_upper]
    rfl

end Reader

/-! ## Lines without quotes -/

namespace Head

/-- A head on a line without quotes. -/
def Unquoted (h : Head) : Prop := ∀ b ∈ h.line, b ≠ Byte.doubleQuote ∧ b ≠ Byte.singleQuote

/-- No reader brings a quote to the line. -/
theorem Unquoted.along {h h' : Head} (hquotes : h.Unquoted) (halong : h.Along h') :
    h'.Unquoted := by
  rw [Unquoted, halong.line]
  exact hquotes

theorem Unquoted.ahead {h : Head} (hquotes : h.Unquoted) :
    Byte.doubleQuote ∉ h.ahead ∧ Byte.singleQuote ∉ h.ahead :=
  ⟨fun h => (hquotes _ (List.mem_append_right _ h)).1 rfl,
    fun h => (hquotes _ (List.mem_append_right _ h)).2 rfl⟩

end Head

namespace Quotation

/-- Without a quote to close it, a string is refused at the same place in
capital letters, and for the same cause. -/
theorem bodyFrom_upper {rest : Bytes} (hquote : Byte.doubleQuote ∉ rest)
    (contents contents' : Bytes) (passed room : Nat) :
    bodyFrom contents' passed room rest.upper = bodyFrom contents passed room rest := by
  have hbackslash (b : Byte) : b.upper = Byte.backslash ↔ b = Byte.backslash :=
    Byte.upper_eq_iff rfl
  have hdouble (b : Byte) : b.upper = Byte.doubleQuote ↔ b = Byte.doubleQuote :=
    Byte.upper_eq_iff rfl
  fun_induction bodyFrom contents passed room rest generalizing contents' with
  | case1 => rfl
  | case2 | case5 => exact absurd List.mem_cons_self hquote
  | case3 contents passed b hb =>
    simp only [Bytes.upper_cons, Bytes.upper_nil, bodyFrom, hdouble, if_neg hb, if_true]
  | case4 contents passed room b hb hmore =>
    simp only [Bytes.upper_cons, Bytes.upper_nil, bodyFrom, hdouble, if_neg hb, if_neg hmore]
  | case6 contents passed b c rest hb =>
    simp only [Bytes.upper_cons, bodyFrom, hdouble, if_neg hb, if_true]
  | case7 contents passed room c rest hmore hb ih =>
    have hrest := ih (fun h => hquote (List.mem_cons_of_mem _ (List.mem_cons_of_mem _ h)))
      (unescape c.upper :: contents')
    rw [Bytes.upper_cons, Bytes.upper_cons, bodyFrom, if_neg ((hdouble _).not.mpr hb), if_neg hmore,
      if_pos ((hbackslash _).mpr rfl), hrest]
  | case8 contents passed room b c rest hb hmore hescape ih =>
    have hrest := ih (fun h => hquote (List.mem_cons_of_mem _ h)) (b.upper :: contents')
    rw [Bytes.upper_cons, Bytes.upper_cons, bodyFrom, if_neg ((hdouble _).not.mpr hb), if_neg hmore,
      if_neg ((hbackslash _).not.mpr hescape), ← Bytes.upper_cons, hrest]

end Quotation

/-! ## The respelling -/

/-- What it is to be refused alike: by one code, with the last token at one
column. -/
def Cause.SamePlace (found found' : Cause × Head) : Prop :=
  found'.1.code = found.1.code ∧ found'.2.tokenStart = found.2.tokenStart

/-- The heads at one place of a line without quotes and of that line in
capital letters. -/
def Head.Capitals (h h' : Head) : Prop := h' = h.upper ∧ h.Unquoted

namespace Quotation

open Reader

variable {options : Options} {h h' : Head}

/-- A string without its quote is refused in either spelling. -/
theorem tally_readString_upper (hheads : h.Capitals h') :
    Tally Head.Capitals Cause.SamePlace (fun found found' => found' = found.map Byte.upper)
      (readString options h) (readString options h') := by
  obtain ⟨rfl, hquotes⟩ := hheads
  have hquote := hquotes.ahead.1
  have hbody : bodyFrom [] 0 options.maxToken h.upper.ahead =
      bodyFrom [] 0 options.maxToken h.ahead := bodyFrom_upper hquote [] [] 0 _
  rw [readString, readString, hbody]
  cases hfound : bodyFrom [] 0 options.maxToken h.ahead with
  | closed contents reach => exact absurd hfound (bodyFrom_ne_closed hquote _ _ _ _ _)
  | tooLong reach => exact .error ⟨rfl, rfl⟩
  | unterminated => exact .error ⟨rfl, rfl⟩

/-- And so is a character. -/
theorem tally_readCharacter_upper (hheads : h.Capitals h') :
    Tally Head.Capitals Cause.SamePlace (fun b b' => b' = b ∧ b.upper = b)
      (readCharacter h) (readCharacter h') := by
  obtain ⟨rfl, hquotes⟩ := hheads
  have hquote : Byte.singleQuote ∉ h.ahead := hquotes.ahead.2
  have hquote' : Byte.singleQuote ∉ h.upper.ahead := by
    intro hmem
    obtain ⟨b, hb, heq⟩ := List.mem_map.mp hmem
    exact hquote ((Byte.upper_eq_iff rfl).mp heq ▸ hb)
  have hread := readCharacter_eq h
  have hread' := readCharacter_eq h.upper
  rw [character?_eq_none fun hmem => hquote (List.mem_of_mem_tail hmem)] at hread
  rw [character?_eq_none fun hmem => hquote' (List.mem_of_mem_tail hmem)] at hread'
  rcases hrun : readCharacter h with ⟨c, h₁⟩ | ⟨failure, h₁⟩ <;> rw [hrun] at hread
  · obtain ⟨_, hnone, -⟩ := hread
    cases hnone
  rcases hrun' : readCharacter h.upper with ⟨c, h₁'⟩ | ⟨failure', h₁'⟩ <;> rw [hrun'] at hread'
  · obtain ⟨_, hnone, -⟩ := hread'
    cases hnone
  obtain ⟨-, rfl, hstart⟩ := hread
  obtain ⟨-, rfl, hstart'⟩ := hread'
  exact .error ⟨rfl, hstart'.trans hstart.symm⟩

end Quotation

/-- **Capital letters are a respelling** of lines without quotes. What is
refused is refused at the same place. -/
def Respelling.capitals : Respelling where
  byte := Byte.upper
  heads := Head.Capitals
  ends := Eq
  refused := Cause.SamePlace
  upper_byte := Byte.upper_upper
  inComment := by
    rintro h _ ⟨rfl, -⟩
    rfl
  ends_column := by
    rintro h _ ⟨rfl, -⟩
    rfl
  ends_refl _ := rfl
  noted := by
    rintro h _ n _ ⟨rfl, hquotes⟩ rfl
    exact ⟨rfl, hquotes⟩
  refused_of_code := by
    rintro cause cause' h _ ⟨rfl, -⟩ hcode
    exact ⟨hcode, rfl⟩
  nextIf := by
    rintro α accepts respell haccepts - - h _ ⟨rfl, hquotes⟩
    have hfound : (h.next.1.map Byte.upper).bind accepts =
        (h.next.1.bind accepts).map respell := by
      cases h.next.1 with
      | none => rfl
      | some b => exact haccepts b
    rw [Reader.nextIf_apply, Reader.nextIf_apply, Head.next_upper, hfound, Option.isSome_map]
    refine .ok rfl ⟨?_, hquotes.along (Reader.along_nextIf accepts h)⟩
    split
    · rfl
    · exact Head.retract_upper _
  skipBlanks := by
    rintro h _ ⟨rfl, hquotes⟩
    rw [Reader.skipBlanksFrom_upper]
    exact ⟨rfl, ⟨rfl, hquotes.along (Reader.along_skipBlanksFrom h)⟩, fun _ => rfl⟩
  readString := Quotation.tally_readString_upper
  readCharacter := Quotation.tally_readCharacter_upper

end BasicLexer
