import BasicLexer.Proofs.Reading.AfterWord
import BasicLexer.Proofs.Reading.Capitals
import BasicLexer.Proofs.Reading.Conformity
import BasicLexer.Proofs.Reading.FullLine

/-!
# Reading — a line spelled in another way

Two lines may be spelled in different ways and say the same. A respelling
(`Respelling`) tells which heads on the two lines are at the same place, and
promises this of the readers that the others are made of: of one byte, of
blanks, and of what is in quotes. Two runs tally (`Reader.Tally`) if they end
alike, in values and at heads that answer each other, or both in a failure.
Then runs of all readers tally, token by token (`Respelling.tally_read`) to
the end of the line (`Respelling.tally_readTokens`).
-/

namespace BasicLexer

/-! ## Runs that tally -/

namespace Reader

variable {α β γ δ : Type}

/-- Two runs tally if both give values, of which one answers the other, and
so do the heads they end at; or both are refused, one as the other. -/
inductive Tally (heads : Head → Head → Prop) (refused : Cause × Head → Cause × Head → Prop)
    (values : α → β → Prop) :
    EStateM.Result (Failure Cause) Head α → EStateM.Result (Failure Cause) Head β → Prop
  | ok {a : α} {b : β} {h h' : Head} (hvalues : values a b) (hheads : heads h h') :
      Tally heads refused values (.ok a h) (.ok b h')
  | error {cause cause' : Cause} {h h' : Head} (hrefused : refused (cause, h) (cause', h')) :
      Tally heads refused values (.error (.reported cause) h) (.error (.reported cause') h')

namespace Tally

variable {heads : Head → Head → Prop} {refused : Cause × Head → Cause × Head → Prop}
variable {values : α → β → Prop} {values' : γ → δ → Prop} {h h' : Head}

theorem of_ok {a : α} {run : EStateM.Result (Failure Cause) Head β}
    (htally : Tally heads refused values (.ok a h) run) :
    ∃ b h', run = .ok b h' ∧ values a b ∧ heads h h' := by
  cases htally with
  | ok hvalues hheads => exact ⟨_, _, rfl, hvalues, hheads⟩

theorem of_error {failure : Failure Cause} {run : EStateM.Result (Failure Cause) Head β}
    (htally : Tally heads refused values (.error failure h) run) :
    ∃ cause cause' h', failure = .reported cause ∧ run = .error (.reported cause') h' ∧
      refused (cause, h) (cause', h') := by
  cases htally with
  | error hrefused => exact ⟨_, _, _, rfl, rfl, hrefused⟩

/-- Values that answer each other may be told in other words. -/
theorem mono {values' : α → β → Prop} {run : EStateM.Result (Failure Cause) Head α}
    {run' : EStateM.Result (Failure Cause) Head β} (htally : Tally heads refused values run run')
    (hvalues : ∀ a b, values a b → values' a b) : Tally heads refused values' run run' := by
  cases htally with
  | ok hab hheads => exact .ok (hvalues _ _ hab) hheads
  | error hrefused => exact .error hrefused

/-- **Sequencing** keeps runs tallying. -/
theorem bind {x : Reader α} {x' : Reader β} {f : α → Reader γ} {f' : β → Reader δ}
    (hx : Tally heads refused values (x h) (x' h'))
    (hf : ∀ a b h h', values a b → heads h h' →
      Tally heads refused values' (f a h) (f' b h')) :
    Tally heads refused values' ((x >>= f) h) ((x' >>= f') h') := by
  cases hrun : x h with
  | ok a h₁ =>
    rw [hrun] at hx
    obtain ⟨b, h₁', hrun', hvalues, hheads⟩ := hx.of_ok
    rw [bind_of_ok hrun, bind_of_ok hrun']
    exact hf a b h₁ h₁' hvalues hheads
  | error failure h₁ =>
    rw [hrun] at hx
    obtain ⟨cause, cause', h₁', rfl, hrun', hrefused⟩ := hx.of_error
    rw [bind_of_error hrun, bind_of_error hrun']
    exact .error hrefused

end Tally

end Reader

open Reader

/-- Tokens that say the same on two lines: of one kind and value, with texts
of which one is the other with its bytes respelled, and at one offset. Where
the end of the line lies is for itself to say. -/
structure Token.Respelled (byte : Byte → Byte) (ends : Nat → Nat → Prop) (t t' : Token) : Prop where
  kind : t'.kind = t.kind
  value : t'.value = t.value
  text : ∃ bytes : Bytes, t.text = bytes.text ∧ t'.text = Bytes.text (bytes.map byte)
  offset : if t.kind = .endOfLine then ends t.offset t'.offset else t'.offset = t.offset

/-- A way of spelling lines: what becomes of their bytes outside quotes,
which heads are at the same place, where lines may end, and what it is to be
refused alike. Bytes are respelled in the other case at most; and at heads
that are at the same place the readers of one byte, of blanks and of quotes
read the same. -/
structure Respelling where
  byte : Byte → Byte
  heads : Head → Head → Prop
  ends : Nat → Nat → Prop
  refused : Cause × Head → Cause × Head → Prop
  upper_byte : ∀ b, (byte b).upper = b.upper
  inComment : ∀ {h h'}, heads h h' → h'.inComment = h.inComment
  ends_column : ∀ {h h'}, heads h h' → ends h.column h'.column
  ends_refl : ∀ n, ends n n
  noted : ∀ {h h' n n'}, heads h h' → ends n n' →
    heads { h with tokenStart := n } { h' with tokenStart := n' }
  refused_of_code : ∀ {cause cause' h h'}, heads h h' → cause'.code = cause.code →
    refused (cause, h) (cause', h')
  /-- A reader of one byte that accepts a byte in either case, and neither
  byte that ends lines, reads the same. -/
  nextIf : ∀ {α : Type} {accepts : Byte → Option α} {respell : α → α},
    (∀ b, accepts (byte b) = (accepts b).map respell) →
    accepts Byte.newline = none → accepts Byte.carriageReturn = none →
    ∀ {h h'}, heads h h' → Tally heads refused (fun a a' => a' = a.map respell)
      (Reader.nextIf accepts h) (Reader.nextIf accepts h')
  /-- Blanks are skipped for the same byte at the same column. -/
  skipBlanks : ∀ {h h'}, heads h h' →
    (skipBlanksFrom h').1 = (skipBlanksFrom h).1.map byte ∧
      heads (skipBlanksFrom h).2 (skipBlanksFrom h').2 ∧
      ((skipBlanksFrom h).1.isSome → (skipBlanksFrom h').2.column = (skipBlanksFrom h).2.column)
  readString : ∀ {options h h'}, heads h h' →
    Tally heads refused (fun found found' => found' = found.map byte)
      (Quotation.readString options h) (Quotation.readString options h')
  readCharacter : ∀ {h h'}, heads h h' →
    Tally heads refused (fun b b' => b' = b ∧ byte b = b)
      (Quotation.readCharacter h) (Quotation.readCharacter h')

namespace Respelling

variable (R : Respelling) {options : Options} {h h' : Head}

/-- Whether two runs tally under a respelling. -/
abbrev Runs {α β : Type} (values : α → β → Prop) (run : EStateM.Result (Failure Cause) Head α)
    (run' : EStateM.Result (Failure Cause) Head β) : Prop :=
  Tally R.heads R.refused values run run'

/-- Whether two tokens say the same under it. -/
abbrev Tokens : Token → Token → Prop := Token.Respelled R.byte R.ends

/-! ## Bytes -/

theorem isWord_byte (b : Byte) : (R.byte b).isWord = b.isWord :=
  Byte.isWord_eq_of_upper_eq (R.upper_byte b)

theorem isDigit_byte (b : Byte) : (R.byte b).isDigit = b.isDigit :=
  Byte.isDigit_eq_of_upper_eq (R.upper_byte b)

/-- A byte outside words is spelled in one way. -/
theorem byte_of_not_word {b : Byte} (hb : b.isWord = false) : R.byte b = b :=
  Byte.eq_of_upper_eq (R.upper_byte b) hb

/-- A byte that is no letter is no other byte respelled. -/
theorem byte_eq_iff (b : Byte) {c : Byte} (hc : c.isLetter = false) : R.byte b = c ↔ b = c :=
  Byte.eq_iff_of_upper_eq (R.upper_byte b) hc

theorem upper_map_byte (bytes : Bytes) : Bytes.upper (bytes.map R.byte) = bytes.upper := by
  rw [Bytes.upper, Bytes.upper, List.map_map]
  exact List.map_congr_left fun b _ => R.upper_byte b

/-! ## Words -/

section Words

open Word

theorem continues_byte (b : Byte) : continues (R.byte b) = (continues b).map R.byte := by
  rw [continues, continues, R.isWord_byte]
  split <;> rfl

/-- The rest of a word is read alike, and as long. -/
theorem tally_tailFrom (word : Bytes) (room : Nat) (hheads : R.heads h h') :
    R.Runs (fun found found' => found' = found.map R.byte) (tailFrom word room h)
      (tailFrom (word.map R.byte) room h') := by
  have hnext {h h' : Head} (hheads : R.heads h h') :=
    R.nextIf R.continues_byte (by decide) (by decide) hheads
  -- the loop takes a byte of the word at every turn but the last, on either line
  fun_induction tailFrom word room h generalizing h' with
  | case1 word h b h₁ hstep =>
    have htally := hnext hheads
    rw [hstep] at htally
    obtain ⟨_, h₁', hstep', rfl, hheads₁⟩ := htally.of_ok
    have hrun' : tailFrom (word.map R.byte) 0 h' = .error (.reported .identifierTooLong) h₁' := by
      rw [tailFrom]
      split <;> rename_i hread <;> rw [hstep'] at hread <;> cases hread
      rfl
    rw [hrun']
    exact .error (R.refused_of_code hheads₁ rfl)
  | case2 word h b h₁ hstep room ih =>
    have htally := hnext hheads
    rw [hstep] at htally
    obtain ⟨_, h₁', hstep', rfl, hheads₁⟩ := htally.of_ok
    rw [tailFrom_of_some hstep']
    exact ih hheads₁
  | case3 word room h h₁ hstep =>
    have htally := hnext hheads
    rw [hstep] at htally
    obtain ⟨_, h₁', hstep', rfl, hheads₁⟩ := htally.of_ok
    rw [tailFrom_of_none hstep']
    exact .ok List.map_reverse.symm hheads₁
  | case4 word room h failure h₁ hstep => exact absurd hstep nextIf_ne_error

theorem tally_word (first : Byte) (hheads : R.heads h h') :
    R.Runs (fun found found' => found' = found.map R.byte) (Word.read options first h)
      (Word.read options (R.byte first) h') :=
  R.tally_tailFrom [first] _ hheads

/-- A word spells the same keyword. -/
theorem keyword?_map_byte (word : Bytes) : keyword? (word.map R.byte) = keyword? word :=
  keyword?_eq_of_upper_eq (R.upper_map_byte word)

theorem tally_skipBlanks (hheads : R.heads h h') :
    R.Runs (fun found found' => found' = found.map R.byte) (Reader.skipBlanks h)
      (Reader.skipBlanks h') :=
  .ok (R.skipBlanks hheads).1 (R.skipBlanks hheads).2.1

/-- What a compound comes with, respelled. -/
def second (found : Compound × Bytes) : Compound × Bytes := (found.1, found.2.map R.byte)

theorem tally_readSecond (first : Keyword) (hheads : R.heads h h') :
    R.Runs (fun found found' => found' = found.map R.second) (readSecond options first h)
      (readSecond options first h') := by
  refine (R.tally_skipBlanks hheads).bind ?_
  rintro (_ | b) _ h₁ h₁' rfl hheads₁
  · exact .ok rfl hheads₁
  dsimp only [Option.map_some]
  rw [R.isWord_byte]
  by_cases hword : b.isWord = true
  · rw [if_pos hword, if_pos hword]
    refine (R.tally_word b hheads₁).bind ?_
    rintro word _ h₂ h₂' rfl hheads₂
    refine .ok ?_ hheads₂
    rw [R.keyword?_map_byte]
    cases keyword? word with
    | none => rfl
    | some second =>
      rw [Option.bind_some, Option.bind_some, Option.map_map]
      rfl
  · rw [if_neg hword, if_neg hword]
    exact .ok rfl hheads₁

/-- A lookahead that goes back goes back to the same place on either line. -/
theorem tally_readCompound (first : Keyword) (hheads : R.heads h h') :
    R.Runs (fun found found' => found' = found.map R.second) (readCompound options first h)
      (readCompound options first h') := by
  have hsecond : R.Runs _ (readSecond options first h) (readSecond options first h') :=
    R.tally_readSecond first hheads
  rw [readCompound_apply, readCompound_apply]
  generalize readSecond options first h = run at hsecond
  generalize readSecond options first h' = run' at hsecond
  cases hsecond with
  | error hrefused => exact .error hrefused
  | @ok found _ h₁ h₁' hvalues hheads₁ =>
    subst hvalues
    cases found with
    | none => exact .ok rfl hheads
    | some found => exact .ok rfl hheads₁

theorem tally_readToken (start : Nat) (first : Byte) (hheads : R.heads h h') :
    R.Runs R.Tokens (readToken options start first h)
      (readToken options start (R.byte first) h') := by
  refine (R.tally_word first hheads).bind ?_
  rintro word _ h₁ h₁' rfl hheads₁
  rw [R.keyword?_map_byte]
  cases keyword? word with
  | none => exact .ok ⟨rfl, rfl, ⟨word, rfl, rfl⟩, rfl⟩ hheads₁
  | some k =>
    dsimp only
    by_cases hopens : k.opensCompound = true
    · rw [if_pos hopens, if_pos hopens]
      refine (R.tally_readCompound k hheads₁).bind ?_
      rintro (_ | ⟨compound, second⟩) _ h₂ h₂' rfl hheads₂
      · exact .ok ⟨rfl, rfl, ⟨word, rfl, rfl⟩, rfl⟩ hheads₂
      · -- the blank between the words is the same in either spelling
        have hblank : R.byte 32 = 32 := R.byte_of_not_word rfl
        have hjoined (word second : Bytes) :
            word.text ++ " " ++ second.text = Bytes.text (word ++ 32 :: second) := by
          apply String.toList_injective
          simp [Bytes.text, Byte.toChar]
        refine .ok ⟨rfl, rfl, ⟨word ++ 32 :: second, hjoined word second, ?_⟩, rfl⟩ hheads₂
        rw [List.map_append, List.map_cons, hblank]
        exact hjoined _ _
    · rw [if_neg hopens, if_neg hopens]
      exact .ok ⟨rfl, rfl, ⟨word, rfl, rfl⟩, rfl⟩ hheads₁

end Words

/-! ## Numbers -/

section Numbers

open Numeral

theorem underscore_byte_iff (b : Byte) : R.byte b = Byte.underscore ↔ b = Byte.underscore :=
  R.byte_eq_iff b rfl

theorem isRadixDigit_byte (radix : Radix) (b : Byte) :
    radix.isDigit (R.byte b) = radix.isDigit b :=
  Byte.isRadixDigit_eq_of_upper_eq radix (R.upper_byte b)

theorem numeral_continues_byte (radix : Radix) (b : Byte) :
    continues radix (R.byte b) = (continues radix b).map R.byte := by
  simp only [continues, R.isRadixDigit_byte, R.underscore_byte_iff]
  split <;> rfl

theorem tally_digitsFrom (radix : Radix) (taken : Bytes) (hheads : R.heads h h') :
    R.Runs (fun found found' => found' = found.map R.byte) (digitsFrom radix taken h)
      (digitsFrom radix (taken.map R.byte) h') := by
  have hends (radix : Radix) : continues radix Byte.newline = none ∧
      continues radix Byte.carriageReturn = none := by
    cases radix <;> decide
  have hnext {h h' : Head} (hheads : R.heads h h') :=
    R.nextIf (R.numeral_continues_byte radix) (hends radix).1 (hends radix).2 hheads
  fun_induction digitsFrom radix taken h generalizing h' with
  | case1 taken h b h₁ hstep ih =>
    have htally := hnext hheads
    rw [hstep] at htally
    obtain ⟨_, h₁', hstep', rfl, hheads₁⟩ := htally.of_ok
    have hrun' : digitsFrom radix (taken.map R.byte) h' = digitsFrom radix
        (List.map R.byte (if b = Byte.underscore then taken else b :: taken)) h₁' := by
      rw [digitsFrom]
      split <;> rename_i hread <;> rw [hstep'] at hread <;> cases hread
      simp only [R.underscore_byte_iff]
      split <;> rfl
    rw [hrun']
    simp only [dite_eq_ite] at ih ⊢
    exact ih hheads₁
  | case2 taken h h₁ hstep =>
    have htally := hnext hheads
    rw [hstep] at htally
    obtain ⟨_, h₁', hstep', rfl, hheads₁⟩ := htally.of_ok
    have hrun' : digitsFrom radix (taken.map R.byte) h' = .ok (taken.map R.byte).reverse h₁' := by
      rw [digitsFrom]
      split <;> rename_i hread <;> rw [hstep'] at hread <;> cases hread
      rfl
    rw [hrun']
    exact .ok List.map_reverse.symm hheads₁
  | case3 taken h failure h₁ hstep => exact absurd hstep nextIf_ne_error

/-- What a number is read as, respelled: its value is the same. -/
def figure (found : Bytes × Int32) : Bytes × Int32 := (found.1.map R.byte, found.2)

theorem tally_numeral (radix : Radix) (first : Bytes) (hheads : R.heads h h') :
    R.Runs (fun found found' => found' = R.figure found) (Numeral.read options radix first h)
      (Numeral.read options radix (first.map R.byte) h') := by
  have hdigits : R.Runs (fun found found' => found' = found.map R.byte) (digits radix first h)
      (digits radix (first.map R.byte) h') := by
    rw [digits, digits, ← List.map_reverse]
    exact R.tally_digitsFrom radix first.reverse hheads
  refine hdigits.bind ?_
  rintro found _ h₁ h₁' rfl hheads₁
  rw [accumulate_eq_of_upper_eq radix (R.upper_map_byte found)]
  dsimp only
  split
  · exact .error (R.refused_of_code hheads₁ rfl)
  · exact .ok rfl hheads₁

end Numbers

/-! ## Tokens -/

section Tokens

open Lexeme

/-- The byte after an operator's first is one of three, none of which is
spelled in two ways. -/
theorem operator?_byte (b c : Byte) : operator? b (R.byte c) = operator? b c := by
  have hbyte {d : Byte} (hd : d.isLetter = false) : R.byte c = d ↔ c = d := R.byte_eq_iff c hd
  simp only [operator?, hbyte (d := Byte.equal) rfl, hbyte (d := Byte.greater) rfl,
    hbyte (d := Byte.less) rfl]

theorem tally_readOperator (start : Nat) (b : Byte) (hheads : R.heads h h') :
    R.Runs R.Tokens (readOperator start b h) (readOperator start b h') := by
  have haccepts (c : Byte) : operator? b (R.byte c) = (operator? b c).map id := by
    rw [Option.map_id_apply, R.operator?_byte]
  have hends {c : Byte} (hequal : c ≠ Byte.equal) (hgreater : c ≠ Byte.greater)
      (hless : c ≠ Byte.less) : operator? b c = none := by
    simp only [operator?, hequal, hgreater, hless, if_false, ite_self]
  have hnewline := hends (c := Byte.newline) (by decide) (by decide) (by decide)
  have hreturn := hends (c := Byte.carriageReturn) (by decide) (by decide) (by decide)
  refine (R.nextIf haccepts hnewline hreturn hheads).bind ?_
  rintro (_ | operator) _ h₁ h₁' rfl hheads₁
  · exact .ok ⟨rfl, rfl, ⟨[], rfl, rfl⟩, rfl⟩ hheads₁
  · exact .ok ⟨rfl, rfl, ⟨[], rfl, rfl⟩, rfl⟩ hheads₁

theorem tally_readMarker (b : Byte) (hheads : R.heads h h') :
    R.Runs (fun found found' => found' = found) (readMarker b h) (readMarker (R.byte b) h') := by
  have haccepts (c : Byte) : Radix.ofMarker (R.byte c) = (Radix.ofMarker c).map id := by
    rw [Option.map_id]
    exact Byte.ofMarker_eq_of_upper_eq (R.upper_byte c)
  have hzero : R.byte b = Byte.zero ↔ b = Byte.zero := R.byte_eq_iff b rfl
  rw [readMarker, readMarker]
  by_cases hb : b = Byte.zero
  · rw [if_pos hb, if_pos (hzero.mpr hb)]
    refine (R.nextIf haccepts rfl rfl hheads).mono ?_
    rintro found _ rfl
    exact Option.map_id_apply
  · rw [if_neg hb, if_neg fun h => hb (hzero.mp h)]
    exact .ok rfl hheads

theorem tally_readNumber (start : Nat) (b : Byte) (hheads : R.heads h h') :
    R.Runs R.Tokens (readNumber options start b h) (readNumber options start (R.byte b) h') := by
  refine (R.tally_readMarker b hheads).bind ?_
  rintro _ marked h₁ h₁' rfl hheads₁
  have hfirst : (if marked.isSome then [] else [R.byte b]) =
      List.map R.byte (if marked.isSome then [] else [b]) := by
    cases marked <;> rfl
  rw [hfirst]
  refine (R.tally_numeral _ _ hheads₁).bind ?_
  rintro found _ h₂ h₂' rfl hheads₂
  exact .ok ⟨rfl, rfl, ⟨found.1, rfl, rfl⟩, rfl⟩ hheads₂

theorem tally_readFrom (start : Nat) (b : Byte) (hheads : R.heads h h') :
    R.Runs R.Tokens (readFrom options start b h) (readFrom options start (R.byte b) h') := by
  have hbyte {c : Byte} (hc : c.isLetter = false) : R.byte b = c ↔ b = c := R.byte_eq_iff b hc
  simp only [readFrom, hbyte (c := Byte.doubleQuote) rfl, hbyte (c := Byte.singleQuote) rfl,
    hbyte (c := Byte.less) rfl, hbyte (c := Byte.greater) rfl, R.isDigit_byte, R.isWord_byte]
  split
  · refine (R.readString hheads).bind ?_
    rintro found _ h₁ h₁' rfl hheads₁
    exact .ok ⟨rfl, rfl, ⟨found, rfl, rfl⟩, rfl⟩ hheads₁
  split
  · refine R.readCharacter hheads |>.bind ?_
    rintro _ c h₁ h₁' ⟨rfl, hc⟩ hheads₁
    exact .ok ⟨rfl, rfl, ⟨[c], rfl, by rw [List.map_singleton, hc]⟩, rfl⟩ hheads₁
  split
  · rename_i hoperator
    have hb : b.isWord = false := by rcases hoperator with rfl | rfl <;> rfl
    rw [R.byte_of_not_word hb]
    exact R.tally_readOperator start b hheads
  split
  · exact R.tally_readNumber start b hheads
  split
  · exact R.tally_readToken start b hheads
  · rename_i hword
    rw [R.byte_of_not_word (Bool.not_eq_true _ ▸ hword)]
    exact .ok ⟨rfl, rfl, ⟨[], rfl, rfl⟩, rfl⟩ hheads

/-- **A token is read alike** on either line. -/
theorem tally_read (hheads : R.heads h h') :
    R.Runs R.Tokens (Lexeme.read options h) (Lexeme.read options h') := by
  obtain ⟨hfirst, hheads₁, hcolumn⟩ := R.skipBlanks hheads
  rw [read_eq, read_eq]
  rcases hskip : skipBlanksFrom h with ⟨_ | b, h₁⟩ <;>
    rcases hskip' : skipBlanksFrom h' with ⟨first', h₁'⟩ <;>
    rw [hskip, hskip'] at hfirst hheads₁ hcolumn <;>
    obtain rfl := hfirst
  · have hend := R.ends_column hheads₁
    exact .ok ⟨rfl, rfl, ⟨[], rfl, rfl⟩, hend⟩ (R.noted hheads₁ hend)
  · have hstart : h₁'.column - 1 = h₁.column - 1 := congrArg (· - 1) (hcolumn rfl)
    have htoken : R.Runs R.Tokens
        (readFrom options (h₁.column - 1) b { h₁ with tokenStart := h₁.column - 1 })
        (readFrom options (h₁'.column - 1) (R.byte b)
          { h₁' with tokenStart := h₁'.column - 1 }) := by
      rw [hstart]
      exact R.tally_readFrom _ b (R.noted hheads₁ (R.ends_refl _))
    exact htoken

/-- **So are all tokens of a line.** -/
theorem tally_readTokens (hheads : R.heads h h') :
    R.Runs (List.Forall₂ R.Tokens) (readTokens options h) (readTokens options h') := by
  have hfirst : R.Runs _ (read options h) (read options h') := R.tally_read hheads
  fun_induction readTokens options h generalizing h' with
  | case1 h failure h₁ hread =>
    rw [hread] at hfirst
    obtain ⟨cause, cause', h₁', rfl, hread', hrefused⟩ := hfirst.of_error
    rw [readTokens_of_error hread']
    exact .error hrefused
  | case2 h t h₁ hread hend =>
    rw [hread] at hfirst
    obtain ⟨t', h₁', hread', htoken, hheads₁⟩ := hfirst.of_ok
    rw [readTokens_of_end hread' (htoken.kind.trans hend)]
    exact .ok (.cons htoken .nil) hheads₁
  | case3 h t h₁ hread hend rest h₂ hrest ih =>
    rw [hread] at hfirst
    obtain ⟨t', h₁', hread', htoken, hheads₁⟩ := hfirst.of_ok
    have hmore := ih hheads₁ (R.tally_read hheads₁)
    rw [hrest] at hmore
    obtain ⟨rest', h₂', hrest', htokens, hheads₂⟩ := hmore.of_ok
    rw [readTokens_of_more hread' fun hend' => hend (htoken.kind.symm.trans hend'), hrest']
    exact .ok (.cons htoken htokens) hheads₂
  | case4 h t h₁ hread hend failure h₂ hrest ih =>
    rw [hread] at hfirst
    obtain ⟨t', h₁', hread', htoken, hheads₁⟩ := hfirst.of_ok
    have hmore := ih hheads₁ (R.tally_read hheads₁)
    rw [hrest] at hmore
    obtain ⟨cause, cause', h₂', rfl, hrest', hrefused⟩ := hmore.of_error
    rw [readTokens_of_more hread' fun hend' => hend (htoken.kind.symm.trans hend'), hrest']
    exact .error hrefused

end Tokens

end Respelling

end BasicLexer
