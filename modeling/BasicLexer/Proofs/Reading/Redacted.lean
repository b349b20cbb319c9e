import BasicLexer.Proofs.Input.Layout
import BasicLexer.Proofs.Reading.LeftOpen

/-!
# Reading — comments with other contents

Comments are told apart line by line: two slashes hide what comes behind
them on their own line, and an opener or a closer of a block comment lies
on one line. `Bytes.Redacted` says of two lines that they differ inside
comments alone, in bytes that close none; of such lines the same is
shown, byte for byte and column for column, and they leave the same open
(`Head.sights_of_redacted`).
-/

namespace BasicLexer

open Bytes

/-- Whether a byte of a comment may stand for another: a newline stays, and
what comes for another byte is no newline, no quote and none of the bytes
that comments are marked with. -/
def Byte.StandsFor (b' b : Byte) : Prop :=
  b' = b ∨ b ≠ Byte.newline ∧
    b' ∉ [Byte.newline, Byte.doubleQuote, Byte.singleQuote, Byte.slash, Byte.asterisk]

instance (b' b : Byte) : Decidable (b'.StandsFor b) := inferInstanceAs (Decidable (_ ∨ _))

namespace Bytes

/-- Whether a byte closes a block comment with the one after it. -/
def ClosesComment (b : Byte) (next : Option Byte) : Prop :=
  b = Byte.asterisk ∧ next = some Byte.slash

instance (b : Byte) (next : Option Byte) : Decidable (ClosesComment b next) :=
  inferInstanceAs (Decidable (_ ∧ _))

/-- A line that begins inside a block comment or not, the line with other
bytes in its comments, and whether both leave a block comment open. -/
inductive Redacted : Bool → Bytes → Bytes → Bool → Prop
  | done (inComment : Bool) : Redacted inComment [] [] inComment
  /-- A byte outside comments stays. -/
  | text {b : Byte} {rest rest' : Bytes} {isOpen : Bool} (hopens : ¬ OpensComment b rest.head?)
      (hrest : Redacted false rest rest' isOpen) :
      Redacted false (b :: rest) (b :: rest') isOpen
  /-- Two slashes stay, and hide the rest of the line. -/
  | slashes {rest rest' : Bytes} (hrest : List.Forall₂ Byte.StandsFor rest' rest) :
      Redacted false (Byte.slash :: Byte.slash :: rest) (Byte.slash :: Byte.slash :: rest') false
  /-- The opener of a block comment stays. -/
  | opener {rest rest' : Bytes} {isOpen : Bool} (hrest : Redacted true rest rest' isOpen) :
      Redacted false (Byte.slash :: Byte.asterisk :: rest) (Byte.slash :: Byte.asterisk :: rest')
        isOpen
  /-- A byte of a block comment that does not close it. -/
  | inside {b b' : Byte} {rest rest' : Bytes} {isOpen : Bool}
      (hcloses : ¬ ClosesComment b rest.head?) (hb : b'.StandsFor b)
      (hrest : Redacted true rest rest' isOpen) : Redacted true (b :: rest) (b' :: rest') isOpen
  /-- The closer of a block comment stays. -/
  | closer {rest rest' : Bytes} {isOpen : Bool} (hrest : Redacted false rest rest' isOpen) :
      Redacted true (Byte.asterisk :: Byte.slash :: rest) (Byte.asterisk :: Byte.slash :: rest')
        isOpen

/-- Lines with other bytes in their comments, where the first begins inside
a block comment or not and each other as the one before it left off. -/
inductive RedactedLines : Bool → List Bytes → List Bytes → Prop
  | nil {inComment : Bool} : RedactedLines inComment [] []
  | cons {inComment isOpen : Bool} {line line' : Bytes} {lines lines' : List Bytes}
      (hline : Redacted inComment line line' isOpen) (hlines : RedactedLines isOpen lines lines') :
      RedactedLines inComment (line :: lines) (line' :: lines')

end Bytes

/-! ## What a byte may stand for -/

namespace Byte.StandsFor

variable {b b' : Byte}

theorem refl (b : Byte) : b.StandsFor b := .inl rfl

/-- No newline comes or goes. -/
theorem newline_iff (hb : b'.StandsFor b) : b' = Byte.newline ↔ b = Byte.newline := by
  rcases hb with rfl | ⟨hb, hb'⟩
  · rfl
  · simp only [List.mem_cons, not_or] at hb'
    exact iff_of_false hb'.1 hb

/-- No slash and no asterisk comes. -/
theorem eq_of_mark (hb : b'.StandsFor b) (hmark : b' = Byte.slash ∨ b' = Byte.asterisk) :
    b' = b := by
  rcases hb with rfl | ⟨-, hb'⟩
  · rfl
  · simp only [List.mem_cons, not_or] at hb'
    rcases hmark with rfl | rfl
    · exact absurd rfl hb'.2.2.2.1
    · exact absurd rfl hb'.2.2.2.2.1

/-- No quote comes. -/
theorem eq_of_quote (hb : b'.StandsFor b)
    (hquote : b' = Byte.doubleQuote ∨ b' = Byte.singleQuote) : b' = b := by
  rcases hb with rfl | ⟨-, hb'⟩
  · rfl
  · simp only [List.mem_cons, not_or] at hb'
    rcases hquote with rfl | rfl
    · exact absurd rfl hb'.2.1
    · exact absurd rfl hb'.2.2.1

end Byte.StandsFor

namespace Bytes

namespace Redacted

variable {inComment isOpen : Bool} {line line' : Bytes}

/-- The bytes of the one line stand for those of the other. -/
theorem standsFor (hline : Redacted inComment line line' isOpen) :
    List.Forall₂ Byte.StandsFor line' line := by
  induction hline with
  | done => exact .nil
  | text _ _ ih => exact .cons (.refl _) ih
  | slashes hrest => exact .cons (.refl _) (.cons (.refl _) hrest)
  | opener _ ih | closer _ ih => exact .cons (.refl _) (.cons (.refl _) ih)
  | inside _ hb _ ih => exact .cons hb ih

end Redacted

/-- They lay a line out alike. -/
theorem layout_of_standsFor {bytes bytes' : Bytes}
    (hbytes : List.Forall₂ Byte.StandsFor bytes' bytes) : bytes'.layout = bytes.layout := by
  induction hbytes with
  | nil => rfl
  | cons hb _ ih =>
    have hnewline := Bool.eq_iff_iff.mpr
      (beq_iff_eq.trans (hb.newline_iff.trans beq_iff_eq.symm))
    rw [layout_cons, layout_cons, hnewline, ih]

/-- A newline that is put behind lines is outside their comments, or inside
one that it does not close. -/
theorem Redacted.append_newline {inComment isOpen : Bool} {line line' : Bytes}
    (hline : Redacted inComment line line' isOpen) :
    Redacted inComment (line ++ [Byte.newline]) (line' ++ [Byte.newline]) isOpen := by
  -- no mark is made of a byte and the newline behind it
  have hhead {rest : Bytes} {c : Byte} (hc : c ≠ Byte.newline)
      (h : (rest ++ [Byte.newline]).head? = some c) : rest.head? = some c := by
    cases rest with
    | nil => exact absurd (Option.some.inj h).symm hc
    | cons d rest => exact h
  induction hline with
  | done inComment =>
    cases inComment with
    | false => exact .text (by rintro ⟨h, -⟩; cases h) (.done false)
    | true => exact .inside (by rintro ⟨h, -⟩; cases h) (.refl _) (.done true)
  | text hopens _ ih =>
    exact .text (fun h => hopens ⟨h.1, h.2.imp (hhead (by decide)) (hhead (by decide))⟩) ih
  | slashes hrest => exact .slashes (List.rel_append hrest (.cons (.refl _) .nil))
  | opener _ ih => exact .opener ih
  | inside hcloses hb _ ih => exact .inside (fun h => hcloses ⟨h.1, hhead (by decide) h.2⟩) hb ih
  | closer _ ih => exact .closer ih

theorem Redacted.terminated {inComment isOpen : Bool} {line line' : Bytes}
    (hline : Redacted inComment line line' isOpen) :
    Redacted inComment (Scan.terminated line) (Scan.terminated line') isOpen := by
  have hlayout := layout_of_standsFor hline.standsFor
  rw [Scan.terminated, Scan.terminated]
  by_cases hend : line.getLast? = some Byte.newline
  · rw [if_pos hend, if_pos ((getLast?_newline_iff_of_layout hlayout).mpr hend)]
    exact hline
  · rw [if_neg hend, if_neg fun h => hend ((getLast?_newline_iff_of_layout hlayout).mp h)]
    exact hline.append_newline

theorem RedactedLines.terminated {inComment : Bool} {lines lines' : List Bytes}
    (hlines : RedactedLines inComment lines lines') :
    RedactedLines inComment (lines.map Scan.terminated) (lines'.map Scan.terminated) := by
  induction hlines with
  | nil => exact .nil
  | cons hline _ ih => exact .cons hline.terminated ih

theorem RedactedLines.layout {inComment : Bool} {lines lines' : List Bytes}
    (hlines : RedactedLines inComment lines lines') : lines'.map layout = lines.map layout := by
  induction hlines with
  | nil => rfl
  | cons hline _ ih =>
    rw [List.map_cons, List.map_cons, ih, layout_of_standsFor hline.standsFor]

/-- The logical lines of the text that redacted pieces make up are redacted
as they are. -/
theorem RedactedLines.logicalLines {limit : Nat} {text : Bytes} {lines : List Bytes}
    (hlines : RedactedLines false (pieces limit text) lines) :
    RedactedLines false (logicalLines limit text) (Bytes.logicalLines limit lines.flatten) := by
  rw [Bytes.logicalLines, Bytes.logicalLines, pieces_flatten_of_layout hlines.layout]
  exact hlines.terminated

/-- Redacting brings no quote. -/
theorem Redacted.not_quote {inComment isOpen : Bool} {line line' : Bytes}
    (hline : Redacted inComment line line' isOpen)
    (hquotes : ∀ b ∈ line, b ≠ Byte.doubleQuote ∧ b ≠ Byte.singleQuote) :
    ∀ b ∈ line', b ≠ Byte.doubleQuote ∧ b ≠ Byte.singleQuote := by
  have hstands := hline.standsFor
  clear hline
  induction hstands with
  | nil => exact nofun
  | cons hb _ ih =>
    obtain ⟨hfirst, hrest⟩ := List.forall_mem_cons.mp hquotes
    refine List.forall_mem_cons.mpr ⟨⟨fun h => ?_, fun h => ?_⟩, ih hrest⟩
    · exact hfirst.1 (hb.eq_of_quote (.inl h) ▸ h)
    · exact hfirst.2 (hb.eq_of_quote (.inr h) ▸ h)

/-! ## First bytes -/

section First

variable {rest rest' : Bytes} {isOpen : Bool}

/-- Outside comments the first byte stays, for it is text or the first of a
mark. -/
theorem Redacted.head?_eq (hrest : Redacted false rest rest' isOpen) :
    rest'.head? = rest.head? := by
  cases hrest <;> rfl

/-- Inside a comment no slash comes to stand first. -/
theorem Redacted.head?_of_slash (hrest : Redacted true rest rest' isOpen)
    (hslash : rest'.head? = some Byte.slash) : rest.head? = some Byte.slash := by
  cases hrest with
  | done => cases hslash
  | inside _ hb _ =>
    cases hslash
    exact congrArg some (hb.eq_of_mark (.inl rfl)).symm
  | closer => cases hslash

end First

end Bytes

/-! ## What is seen -/

namespace Sight

variable {b : Byte} {rest : Bytes}

theorem ofRest_slashes (passed : Nat) (rest : Bytes) :
    ofRest false passed (Byte.slash :: Byte.slash :: rest) = .hidden false := by
  rw [ofRest, if_pos ⟨rfl, rfl⟩]

theorem ofRest_opener (passed : Nat) (rest : Bytes) :
    ofRest false passed (Byte.slash :: Byte.asterisk :: rest) = ofRest true (passed + 2) rest := by
  rw [ofRest, if_neg (by decide), if_pos ⟨rfl, rfl⟩]

theorem ofRest_closer (passed : Nat) (rest : Bytes) :
    ofRest true passed (Byte.asterisk :: Byte.slash :: rest) = ofRest false (passed + 2) rest := by
  rw [ofRest, if_pos ⟨rfl, rfl⟩]

theorem ofRest_inside (passed : Nat) (hcloses : ¬ ClosesComment b rest.head?) :
    ofRest true passed (b :: rest) = ofRest true (passed + 1) rest := by
  cases rest with
  | nil => rfl
  | cons c rest => rw [ofRest, if_neg fun h => hcloses ⟨h.1, congrArg some h.2⟩]

/-- What is the same to be seen of two rests of lines, of which `passed`
bytes were passed before: one byte, as far into either, and redacted lines
behind it; or nothing, and both leave open what they leave open. -/
inductive Same (passed : Nat) (isOpen : Bool) (rest rest' : Bytes) : Sight → Prop
  | byte {skipped skipped' after after' : Bytes} (b : Byte) (hrest : rest = skipped ++ after)
      (hrest' : rest' = skipped' ++ after') (hlength : skipped'.length = skipped.length)
      (hafter : Redacted false after after' isOpen) :
      Same passed isOpen rest rest' (.byte b (passed + skipped.length))
  | hidden : Same passed isOpen rest rest' (.hidden isOpen)
  | exhausted (hopen : isOpen = false) : Same passed isOpen rest rest' .exhausted

/-- Passing the same number of bytes before makes no difference. -/
theorem Same.pass {passed : Nat} {isOpen : Bool} {rest rest' : Bytes} {sight : Sight}
    (bytes bytes' : Bytes) (hlength : bytes'.length = bytes.length)
    (hsame : Same (passed + bytes.length) isOpen rest rest' sight) :
    Same passed isOpen (bytes ++ rest) (bytes' ++ rest') sight := by
  cases hsame with
  | @byte skipped skipped' after after' b hrest hrest' hskipped hafter =>
    have hbefore : bytes ++ rest = bytes ++ skipped ++ after := by rw [hrest, List.append_assoc]
    have hbefore' : bytes' ++ rest' = bytes' ++ skipped' ++ after' := by
      rw [hrest', List.append_assoc]
    rw [Nat.add_assoc, ← List.length_append]
    refine .byte b hbefore hbefore' ?_ hafter
    rw [List.length_append, List.length_append, hlength, hskipped]
  | hidden => exact .hidden
  | exhausted hopen => exact .exhausted hopen

/-- **Of redacted lines the same is seen.** -/
theorem ofRest_of_redacted {inComment isOpen : Bool} {rest rest' : Bytes} (passed : Nat)
    (hrest : Redacted inComment rest rest' isOpen) :
    ofRest inComment passed rest' = ofRest inComment passed rest ∧
      Same passed isOpen rest rest' (ofRest inComment passed rest) := by
  induction hrest generalizing passed with
  | done inComment =>
    cases inComment with
    | false => exact ⟨rfl, .exhausted rfl⟩
    | true => exact ⟨rfl, .hidden⟩
  | @text b rest rest' isOpen hopens hrest ih =>
    have hopens' : ¬ OpensComment b rest'.head? := by rwa [hrest.head?_eq]
    rw [ofRest_cons_iff.mpr hopens, ofRest_cons_iff.mpr hopens']
    have hfirst (rest : Bytes) : b :: rest = [b] ++ rest := rfl
    exact ⟨rfl, .byte b (hfirst rest) (hfirst rest') rfl hrest⟩
  | slashes =>
    rw [ofRest_slashes, ofRest_slashes]
    exact ⟨rfl, .hidden⟩
  | opener hrest ih =>
    rw [ofRest_opener, ofRest_opener]
    exact ⟨(ih _).1, (ih _).2.pass [Byte.slash, Byte.asterisk] [Byte.slash, Byte.asterisk] rfl⟩
  | @inside b b' rest rest' isOpen hcloses hb hrest ih =>
    have hcloses' : ¬ ClosesComment b' rest'.head? := fun h =>
      hcloses ⟨(hb.eq_of_mark (.inr h.1)).symm.trans h.1, hrest.head?_of_slash h.2⟩
    rw [ofRest_inside _ hcloses, ofRest_inside _ hcloses']
    exact ⟨(ih _).1, (ih _).2.pass [b] [b'] rfl⟩
  | closer hrest ih =>
    rw [ofRest_closer, ofRest_closer]
    exact ⟨(ih _).1, (ih _).2.pass [Byte.asterisk, Byte.slash] [Byte.asterisk, Byte.slash] rfl⟩

end Sight

namespace Head

/-- The same byte is read of redacted lines, and they are redacted behind
it; or none is, and both leave the same open. -/
theorem next_of_redacted {h h' : Head} {isOpen : Bool}
    (hahead : Redacted h.inComment h.ahead h'.ahead isOpen)
    (hcomment : h'.inComment = h.inComment) (hcolumn : h'.column = h.column) :
    h'.next.1 = h.next.1 ∧
      if h.next.1.isSome then
        Redacted h.next.2.inComment h.next.2.ahead h'.next.2.ahead isOpen ∧
          h'.next.2.inComment = h.next.2.inComment ∧ h'.next.2.column = h.next.2.column
      else h.next.2.inComment = isOpen ∧ h'.next.2.inComment = isOpen := by
  obtain ⟨hsee, hsame⟩ := Sight.ofRest_of_redacted 0 hahead
  unfold next
  rw [hcomment, hsee]
  cases hsight : Sight.ofRest h.inComment 0 h.ahead with
  | byte b reach =>
    rw [hsight] at hsame
    cases hsame with
    | byte b hrest hrest' hlength hafter =>
      simp [forward, hrest, hrest', ← hlength, hcolumn, hafter]
  | exhausted =>
    rw [hsight] at hsame
    cases hsame with
    | exhausted hopen => simp [hopen]
  | hidden found =>
    rw [hsight] at hsame
    cases hsame
    simp

/-- **Redacted lines are shown alike**: the same bytes at the same columns,
and the same is left open. -/
theorem sights_of_redacted {h h' : Head} {isOpen : Bool}
    (hahead : Redacted h.inComment h.ahead h'.ahead isOpen)
    (hcomment : h'.inComment = h.inComment) (hcolumn : h'.column = h.column) :
    h'.sights = h.sights ∧ h.leavesOpen = isOpen ∧ h'.leavesOpen = isOpen := by
  obtain ⟨hsame, hmoved⟩ := next_of_redacted hahead hcomment hcolumn
  fun_induction sights h generalizing h' with
  | case1 h b hnext ih =>
    rw [hnext, Option.isSome_some, if_pos rfl] at hmoved
    obtain ⟨hahead', hcomment', hcolumn'⟩ := hmoved
    obtain ⟨hsame', hmoved'⟩ := next_of_redacted hahead' hcomment' hcolumn'
    obtain ⟨hsights, hopen, hopen'⟩ := ih hahead' hcomment' hcolumn' hsame' hmoved'
    rw [sights_of_some (hsame.trans hnext), hsights, hcolumn', ← h.leavesOpen_next,
      ← h'.leavesOpen_next]
    exact ⟨rfl, hopen, hopen'⟩
  | case2 h hnext =>
    rw [hnext, Option.isSome_none, if_neg Bool.false_ne_true] at hmoved
    rw [sights_of_none (hsame.trans hnext), leavesOpen, leavesOpen, drained_of_none hnext,
      drained_of_none (hsame.trans hnext)]
    exact ⟨rfl, hmoved⟩

end Head

end BasicLexer
