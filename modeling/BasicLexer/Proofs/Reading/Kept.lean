import BasicLexer.Proofs.Reading.Visible

/-!
# Reading — what every move keeps

Readers are made of few moves of a head: reading a byte, with comments or
without, taking back the byte just read, and passing over the inside of a
string. What all these keep (`Head.Moved`) every reader keeps that goes on
from the first byte of a token, however it ends. What noting the column of a
token keeps too (`Head.Kept`) the reader of tokens keeps
(`Lexeme.preserves_read`).
-/

namespace BasicLexer

/-- What every move of a head along its line keeps. -/
structure Head.Moved (P : Head → Prop) : Prop where
  read : ∀ {h}, P h → P h.read.2
  next : ∀ {h}, P h → P h.next.2
  retract : ∀ {h}, P h → P h.next.2.retract
  passed : ∀ {h reach}, P h → 0 < reach → reach ≤ h.ahead.length →
    P { h.forward reach with lastRead := .consumed }
  ended : ∀ {h}, P h → P { h.forward h.ahead.length with lastRead := .atEnd }

/-- What every move keeps, that of noting the column of a token included. The
column noted is none beyond that of the head. -/
structure Head.Kept (P : Head → Prop) : Prop extends Head.Moved P where
  noted : ∀ {h} start, P h → start ≤ h.column → P { h with tokenStart := start }

/-- No move notes a column, so that of a token stays noted. -/
theorem Head.moved_tokenStart (start : Nat) : Head.Moved fun h => h.tokenStart = start where
  read {h} hh := by
    rw [← hh, Head.read]
    cases h.ahead <;> rfl
  next {h} hh := by rw [Head.tokenStart_next, hh]
  retract {h} hh := by rw [Head.tokenStart_retract, Head.tokenStart_next, hh]
  passed hh _ _ := hh
  ended hh := hh

namespace Reader

variable {α β : Type}

/-- Where a run leaves the head, failed or not. -/
def left : EStateM.Result (Failure Cause) Head α → Head
  | .ok _ h => h
  | .error _ h => h

/-- A reader preserves a property if from a head that has it every run leaves
a head that has it. -/
def Preserves (P : Head → Prop) (x : Reader α) : Prop := ∀ h, P h → P (left (x h))

namespace Preserves

variable {P : Head → Prop}

theorem pure (a : α) : Preserves P (pure a : Reader α) := fun _ hh => hh

theorem fail (cause : Cause) : Preserves P (Reader.fail cause : Reader α) := fun _ hh => hh

theorem bind {x : Reader α} {f : α → Reader β} (hx : x.Preserves P)
    (hf : ∀ a, (f a).Preserves P) : (x >>= f).Preserves P := by
  intro h hh
  have hfirst := hx h hh
  cases hrun : x h with
  | ok a h' =>
    rw [hrun] at hfirst
    rw [bind_of_ok hrun]
    exact hf a h' hfirst
  | error failure h' =>
    rw [hrun] at hfirst
    rw [bind_of_error hrun]
    exact hfirst

theorem of_run {x : Reader α} (hx : x.Preserves P) {h : Head} (hh : P h)
    {run : EStateM.Result (Failure Cause) Head α} (hrun : x h = run) : P (left run) :=
  hrun ▸ hx h hh

end Preserves

end Reader

open Reader

section Readers

variable {P : Head → Prop} (hP : Head.Moved P)
include hP

/-! ## One byte -/

theorem Reader.preserves_read : Reader.read.Preserves P := fun _ hh => hP.read hh

theorem Reader.preserves_nextIf {α : Type} (accepts : Byte → Option α) :
    (nextIf accepts).Preserves P := by
  intro h hh
  rw [nextIf_apply, left]
  split
  · exact hP.next hh
  · exact hP.retract hh

theorem Reader.preserves_skipBlanks : skipBlanks.Preserves P := by
  intro h hh
  show P (skipBlanksFrom h).2
  fun_induction skipBlanksFrom h with
  | case1 h b hnext hblank ih => exact ih (hP.next hh)
  | case2 h b hnext hblank | case3 h hnext => exact hP.next hh

/-! ## Words -/

namespace Word

theorem preserves_read (options : Options) (first : Byte) : (read options first).Preserves P := by
  intro h hh
  rw [read]
  generalize [first] = word
  generalize options.maxToken - 1 = room
  fun_induction tailFrom word room h with
  | case1 word h b h₁ hstep => exact (preserves_nextIf hP _).of_run hh hstep
  | case2 word h b h₁ hstep room ih => exact ih ((preserves_nextIf hP _).of_run hh hstep)
  | case3 word room h h₁ hstep => exact (preserves_nextIf hP _).of_run hh hstep
  | case4 word room h failure h₁ hstep => exact (preserves_nextIf hP _).of_run hh hstep

theorem preserves_readSecond (options : Options) (first : Keyword) :
    (readSecond options first).Preserves P := by
  refine .bind (preserves_skipBlanks hP) fun found => ?_
  cases found with
  | none => exact .pure _
  | some b =>
    by_cases hword : b.isWord = true
    · simp only [hword, if_true]
      exact .bind (preserves_read hP options b) fun _ => .pure _
    · simp only [hword]
      exact .pure _

theorem preserves_readCompound (options : Options) (first : Keyword) :
    (readCompound options first).Preserves P := by
  intro h hh
  have hsecond := preserves_readSecond hP options first h hh
  rw [readCompound_apply]
  rcases hrun : readSecond options first h with ⟨_ | found, h₁⟩ | ⟨failure, h₁⟩ <;>
    rw [hrun] at hsecond
  -- a miss goes back to the head that was marked
  · exact hh
  · exact hsecond
  · exact hsecond

theorem preserves_readToken (options : Options) (start : Nat) (first : Byte) :
    (readToken options start first).Preserves P := by
  refine .bind (preserves_read hP options first) fun word => ?_
  cases keyword? word with
  | none => exact .pure _
  | some k =>
    by_cases hopens : k.opensCompound = true
    · simp only [hopens, if_true]
      refine .bind (preserves_readCompound hP options k) fun found => ?_
      cases found <;> exact .pure _
    · simp only [hopens]
      exact .pure _

end Word

/-! ## Numbers -/

namespace Numeral

theorem preserves_digits (radix : Radix) (first : Bytes) : (digits radix first).Preserves P := by
  intro h hh
  rw [digits]
  generalize first.reverse = taken
  fun_induction digitsFrom radix taken h with
  | case1 taken h b h₁ hstep ih => exact ih ((preserves_nextIf hP _).of_run hh hstep)
  | case2 taken h h₁ hstep => exact (preserves_nextIf hP _).of_run hh hstep
  | case3 taken h failure h₁ hstep => exact (preserves_nextIf hP _).of_run hh hstep

theorem preserves_read (options : Options) (radix : Radix) (first : Bytes) :
    (read options radix first).Preserves P := by
  refine .bind (preserves_digits hP radix first) fun digits => ?_
  dsimp only
  split
  · exact .fail _
  · exact .pure _

end Numeral

/-! ## Literals in quotes -/

namespace Quotation

theorem preserves_readString (options : Options) : (readString options).Preserves P := by
  intro h hh
  have hreach := reach_bodyFrom [] 0 options.maxToken h.ahead
  rw [readString]
  cases hbody : bodyFrom [] 0 options.maxToken h.ahead with
  | closed contents reach =>
    simp only [hbody, Nat.zero_add] at hreach
    exact hP.passed hh hreach.1 hreach.2
  | tooLong reach =>
    simp only [hbody, Nat.zero_add] at hreach
    exact hP.passed hh hreach.1 hreach.2
  | unterminated => exact hP.ended hh

theorem preserves_readEscape : readEscape.Preserves P := by
  refine .bind (Reader.preserves_read hP) fun b => ?_
  cases b <;> exact .pure _

theorem preserves_readContent : readContent.Preserves P := by
  refine .bind (Reader.preserves_read hP) fun b => ?_
  cases b with
  | none => exact .fail _
  | some b =>
    by_cases hescape : b = Byte.backslash
    · simp only [hescape, if_true]
      exact preserves_readEscape hP
    · simp only [hescape, if_false]
      exact .pure _

theorem preserves_readCharacter : readCharacter.Preserves P := by
  refine .bind (preserves_readContent hP) fun content => ?_
  refine .bind (Reader.preserves_read hP) fun b => ?_
  split
  · exact .pure _
  · exact .fail _

end Quotation

/-! ## Tokens -/

namespace Lexeme

theorem preserves_readOperator (start : Nat) (b : Byte) : (readOperator start b).Preserves P := by
  refine .bind (preserves_nextIf hP _) fun found => ?_
  cases found <;> exact .pure _

theorem preserves_readMarker (b : Byte) : (readMarker b).Preserves P := by
  unfold readMarker
  split
  · exact preserves_nextIf hP _
  · exact .pure _

theorem preserves_readNumber (options : Options) (start : Nat) (b : Byte) :
    (readNumber options start b).Preserves P :=
  .bind (preserves_readMarker hP b) fun _ =>
    .bind (Numeral.preserves_read hP _ _ _) fun _ => .pure _

theorem preserves_readFrom (options : Options) (start : Nat) (b : Byte) :
    (readFrom options start b).Preserves P := by
  unfold readFrom
  split
  · exact .bind (Quotation.preserves_readString hP options) fun _ => .pure _
  split
  · exact .bind (Quotation.preserves_readCharacter hP) fun _ => .pure _
  split
  · exact preserves_readOperator hP start b
  split
  · exact preserves_readNumber hP options start b
  split
  · exact Word.preserves_readToken hP options start b
  · exact .pure _

end Lexeme

end Readers

namespace Lexeme

/-! ## Noting the column -/

/-- **What every move keeps reading a token keeps.** -/
theorem preserves_read {P : Head → Prop} (hP : Head.Kept P) (options : Options) :
    (read options).Preserves P := by
  have hnote (found : Bool) : (noteStart found).Preserves P := fun h hh =>
    hP.noted _ hh (by cases found <;> simp)
  refine .bind (preserves_skipBlanks hP.toMoved) fun first => ?_
  refine .bind (hnote _) fun start => ?_
  cases first with
  | none => exact .pure _
  | some b => exact preserves_readFrom hP.toMoved options start b

end Lexeme

end BasicLexer
