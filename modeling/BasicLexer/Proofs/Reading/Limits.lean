import BasicLexer.Proofs.Reading.AfterWord
import BasicLexer.Proofs.Reading.FullLine

/-!
# Reading — limits only refuse

Options limit how long words and strings may be and which numbers are let
through. Where they are eased, a reader does what it did before, or it was
refused for a limit before (`Reader.Eases`): no limit has a say in what is
read, not even in what the lookahead for compounds makes of a word that it
then gives back. It is so for each token (`Lexeme.eases_read`) and for all
tokens of a line (`Lexeme.eases_readTokens`).
-/

namespace BasicLexer

/-! ## Easing limits -/

namespace Options

/-- Options that let through all that others do: no shorter words and
strings, and any number or what the others make of numbers. -/
structure Eases (options eased : Options) : Prop where
  maxToken : options.maxToken ≤ eased.maxToken
  literalOverflow :
    eased.literalOverflow = .wrap ∨ eased.literalOverflow = options.literalOverflow

end Options

namespace Cause

/-- The codes of what is refused for a limit: 1001, 1002 and 1006. -/
def limitCodes : List Nat :=
  [Message.identifierTooLong.code, Message.stringTooLong.code, Message.numberOutOfRange.code]

end Cause

namespace Reader

variable {α β : Type}

/-- A run that is refused for a limit. -/
def Refused (run : EStateM.Result (Failure Cause) Head α) : Prop :=
  ∃ cause h, run = .error (.reported cause) h ∧ cause.code ∈ Cause.limitCodes

theorem not_refused_ok {a : α} {h : Head} : ¬ Refused (.ok a h) := by
  rintro ⟨_, _, hrun, -⟩
  cases hrun

/-- What is refused gives no value of any kind. -/
theorem Refused.of_error {failure : Failure Cause} {h : Head}
    (hrefused : Refused (α := α) (.error failure h)) : Refused (α := β) (.error failure h) := by
  obtain ⟨cause, _, hrun, hlimit⟩ := hrefused
  cases hrun
  exact ⟨cause, h, rfl, hlimit⟩

/-- A reader is eased to another if the other does the same wherever the
first is not refused for a limit. -/
def Eases (x eased : Reader α) : Prop := ∀ h, eased h = x h ∨ Refused (x h)

namespace Eases

theorem refl (x : Reader α) : Eases x x := fun _ => .inl rfl

theorem bind {x eased : Reader α} {f g : α → Reader β} (hx : Eases x eased)
    (hf : ∀ a, Eases (f a) (g a)) : Eases (x >>= f) (eased >>= g) := by
  intro h
  have hfirst := hx h
  cases hrun : x h with
  | ok a h' =>
    rw [hrun] at hfirst
    rw [bind_of_ok hrun, bind_of_ok (hfirst.resolve_right not_refused_ok)]
    exact hf a h'
  | error failure h' =>
    rw [hrun] at hfirst
    rw [bind_of_error hrun]
    exact hfirst.imp bind_of_error Refused.of_error

end Eases

end Reader

open Reader

variable {options eased : Options}

/-! ## Words -/

namespace Word

/-- More room for a word only lets it go on. -/
theorem tailFrom_of_room {room room' : Nat} (hroom : room ≤ room') (word : Bytes) (h : Head) :
    tailFrom word room' h = tailFrom word room h ∨ Refused (tailFrom word room h) := by
  fun_induction tailFrom word room h generalizing room' with
  | case1 word h b h₁ hstep =>
    exact .inr ⟨.identifierTooLong, h₁, rfl, List.mem_cons_self⟩
  | case2 word h b h₁ hstep room ih =>
    obtain ⟨room', rfl⟩ : ∃ n, room' = n + 1 := ⟨room' - 1, by omega⟩
    rw [tailFrom_of_some hstep]
    exact ih (Nat.le_of_succ_le_succ hroom)
  | case3 word room h h₁ hstep => exact .inl (tailFrom_of_none hstep)
  | case4 word room h failure h₁ hstep => exact absurd hstep nextIf_ne_error

theorem eases_read (hoptions : options.Eases eased) (first : Byte) :
    Eases (read options first) (read eased first) :=
  fun h => tailFrom_of_room (Nat.sub_le_sub_right hoptions.maxToken 1) [first] h

theorem eases_readSecond (hoptions : options.Eases eased) (first : Keyword) :
    Eases (readSecond options first) (readSecond eased first) := by
  refine .bind (.refl _) fun found => ?_
  cases found with
  | none => exact .refl _
  | some b =>
    by_cases hword : b.isWord = true
    · simp only [hword, if_true]
      exact .bind (eases_read hoptions b) fun _ => .refl _
    · simp only [hword]
      exact .refl _

/-- The lookahead that goes back goes back to the same head, and one that is
refused was refused for the word it looked at. -/
theorem eases_readCompound (hoptions : options.Eases eased) (first : Keyword) :
    Eases (readCompound options first) (readCompound eased first) := by
  intro h
  rw [readCompound_apply, readCompound_apply]
  rcases eases_readSecond hoptions first h with hsame | ⟨cause, h', hrun, hlimit⟩
  · exact .inl (by rw [hsame])
  · exact .inr ⟨cause, h', by rw [hrun], hlimit⟩

theorem eases_readToken (hoptions : options.Eases eased) (start : Nat) (first : Byte) :
    Eases (readToken options start first) (readToken eased start first) := by
  refine .bind (eases_read hoptions first) fun word => ?_
  cases keyword? word with
  | none => exact .refl _
  | some k =>
    by_cases hopens : k.opensCompound = true
    · simp only [hopens, if_true]
      exact .bind (eases_readCompound hoptions k) fun _ => .refl _
    · simp only [hopens]
      exact .refl _

end Word

/-! ## Numbers -/

namespace Numeral

theorem eases_read (hoptions : options.Eases eased) (radix : Radix) (first : Bytes) :
    Eases (read options radix first) (read eased radix first) := by
  refine .bind (.refl _) fun digits h => ?_
  have hcode : Message.numberOutOfRange.code ∈ Cause.limitCodes := by decide
  let overflows := (accumulate radix digits).fits radix = false
  by_cases hrefused : options.literalOverflow = .error ∧ overflows
  · exact .inr ⟨.numberOutOfRange digits.text, h, by rw [if_pos hrefused]; rfl, hcode⟩
  · have hkept : ¬ (eased.literalOverflow = .error ∧ overflows) := by
      rintro ⟨herror, hfits⟩
      rcases hoptions.literalOverflow with hwrap | hsame
      · rw [hwrap] at herror
        cases herror
      · exact hrefused ⟨hsame ▸ herror, hfits⟩
    exact .inl (by rw [if_neg hrefused, if_neg hkept])

end Numeral

/-! ## Literals in quotes -/

namespace Quotation

/-- More room for a string only lets it go on: it ends where it did, and
the line ends inside it where it did. -/
theorem bodyFrom_of_room {room room' : Nat} (hroom : room ≤ room') (contents : Bytes)
    (passed : Nat) (rest : Bytes) :
    bodyFrom contents passed room' rest = bodyFrom contents passed room rest ∨
      ∃ reach, bodyFrom contents passed room rest = .tooLong reach := by
  fun_induction bodyFrom contents passed room rest generalizing room' with
  | case1 => exact .inl rfl
  | case2 | case5 => exact .inl (by rw [bodyFrom, if_pos rfl])
  | case3 contents passed | case6 contents passed => exact .inr ⟨passed + 1, rfl⟩
  | case4 contents passed room b hquote hmore =>
    have hmore' : room' ≠ 0 := by omega
    exact .inl (by rw [bodyFrom, if_neg hquote, if_neg hmore'])
  | case7 contents passed room c rest hmore hquote ih =>
    have hmore' : room' ≠ 0 := by omega
    rw [bodyFrom, if_neg hquote, if_neg hmore', if_pos rfl]
    exact ih (Nat.sub_le_sub_right hroom 1)
  | case8 contents passed room b c rest hquote hmore hescape ih =>
    have hmore' : room' ≠ 0 := by omega
    rw [bodyFrom, if_neg hquote, if_neg hmore', if_neg hescape]
    exact ih (Nat.sub_le_sub_right hroom 1)

theorem eases_readString (hoptions : options.Eases eased) :
    Eases (readString options) (readString eased) := by
  intro h
  rw [readString, readString]
  rcases bodyFrom_of_room hoptions.maxToken [] 0 h.ahead with hsame | ⟨reach, htoo⟩
  · exact .inl (by rw [hsame])
  · have hcode : Message.stringTooLong.code ∈ Cause.limitCodes := by decide
    exact .inr ⟨.stringTooLong, _, by rw [htoo], hcode⟩

end Quotation

/-! ## Tokens -/

namespace Lexeme

theorem eases_readNumber (hoptions : options.Eases eased) (start : Nat) (b : Byte) :
    Eases (readNumber options start b) (readNumber eased start b) :=
  .bind (.refl _) fun _ => .bind (Numeral.eases_read hoptions _ _) fun _ => .refl _

theorem eases_readFrom (hoptions : options.Eases eased) (start : Nat) (b : Byte) :
    Eases (readFrom options start b) (readFrom eased start b) := by
  unfold readFrom
  split
  · exact .bind (Quotation.eases_readString hoptions) fun _ => .refl _
  split
  · exact .refl _
  split
  · exact .refl _
  split
  · exact eases_readNumber hoptions start b
  split
  · exact Word.eases_readToken hoptions start b
  · exact .refl _

/-- **A limit does nothing to a token** but refuse it. -/
theorem eases_read (hoptions : options.Eases eased) : Eases (read options) (read eased) := by
  refine .bind (.refl _) fun first => .bind (.refl _) fun start => ?_
  cases first with
  | none => exact .refl _
  | some b => exact eases_readFrom hoptions start b

/-- Nor to the tokens of a line. -/
theorem eases_readTokens (hoptions : options.Eases eased) :
    Eases (readTokens options) (readTokens eased) := by
  intro h
  have hfirst := eases_read hoptions h
  fun_induction readTokens options h with
  | case1 h failure h' hread =>
    rw [hread] at hfirst
    exact hfirst.imp readTokens_of_error Refused.of_error
  | case2 h t h' hread hend =>
    rw [hread] at hfirst
    exact .inl (readTokens_of_end (hfirst.resolve_right not_refused_ok) hend)
  | case3 h t h' hread hend rest h'' hrest ih =>
    have hmore := ih (eases_read hoptions h')
    rw [hrest] at hmore
    rw [hread] at hfirst
    rw [readTokens_of_more (hfirst.resolve_right not_refused_ok) hend,
      hmore.resolve_right not_refused_ok]
    exact .inl rfl
  | case4 h t h' hread hend failure h'' hrest ih =>
    have hmore := ih (eases_read hoptions h')
    rw [hrest] at hmore
    rw [hread] at hfirst
    rw [readTokens_of_more (hfirst.resolve_right not_refused_ok) hend]
    exact hmore.imp_left fun hsame => by rw [hsame]

end Lexeme

end BasicLexer
