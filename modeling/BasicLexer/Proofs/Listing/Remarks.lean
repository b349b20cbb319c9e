import BasicLexer.Proofs.Listing.Fetched
import BasicLexer.Proofs.Reading.AfterWord
import BasicLexer.Proofs.Scanner.AllLines

/-!
# Listings — remarks

The text of a remark is not scanned. One look at it is taken all the
same, where the word `REM` ends, and that look goes past comments. So the
text may be anything if comments alone do not hide it to its end and stay
open there (`Statement.ofLine_reworded`), and a listing is the same
whatever its remarks say but for that (`Listing.make_reworded`). A block
comment right behind `REM` does reach into the lines that follow
(`Listing.make_comment_behind_remark`).
-/

namespace BasicLexer

open Scan

namespace Listing

/-! ## Lines -/

/-- Whether a line is a remark: its first token is `REM`. -/
def isRemark (options : Options) (inComment : Bool) (line : Bytes) : Bool :=
  match Lexeme.token options { ahead := line, inComment } with
  | .ok (first, _) => first.isKeyword .REM
  | .error _ => false

/-- The text of a remark, from right behind its first word. -/
def remarkText (inComment : Bool) (line : Bytes) : Bytes :=
  Bytes.afterWord (Reader.skipBlanksFrom { ahead := line, inComment }).2.ahead

/-- A remark with another text as long, and a remark still. -/
structure Reworded (options : Options) (inComment : Bool) (line text line' : Bytes) : Prop where
  remark : isRemark options inComment line = true
  remark' : isRemark options inComment line' = true
  length : text.length = (remarkText inComment line).length
  kept : ∃ kept, line = kept ++ remarkText inComment line ∧ line' = kept ++ text

/-- What a remark says: its keyword, and that the line ends. -/
theorem ofLine_of_isRemark {options : Options} {inComment : Bool} {line : Bytes}
    (hremark : isRemark options inComment line = true) :
    ∃ first h, Lexeme.read options { ahead := line, inComment } = .ok first h ∧
      first.isKeyword .REM = true ∧
      Statement.ofLine options inComment line =
        .ok (.tokens [first, { kind := .endOfLine, offset := line.length }], h.inComment) := by
  rw [isRemark] at hremark
  cases htoken : Lexeme.token options { ahead := line, inComment } with
  | error cause =>
    rw [htoken] at hremark
    cases hremark
  | ok found =>
    obtain ⟨first, h⟩ := found
    rw [htoken] at hremark
    have hother : ¬ first.isKeyword .INCLUDE = true := by
      simp only [Token.isKeyword, decide_eq_true_eq] at hremark ⊢
      rw [hremark]
      nofun
    refine ⟨first, h, Lexeme.token_eq_ok.mp htoken, hremark, ?_⟩
    rw [Statement.ofLine, htoken]
    simp only [Bind.bind, Except.bind, if_neg hother]
    rw [if_pos hremark]
    rfl

/-- **A remark says the same whatever its text**, exactly if with both texts
the look behind `REM` ends in a comment, or with neither. -/
theorem Statement.ofLine_reworded {options : Options} {inComment : Bool} {line text line' : Bytes}
    (hreworded : Reworded options inComment line text line') :
    Statement.ofLine options inComment line' = Statement.ofLine options inComment line ↔
      text.opensComment = (remarkText inComment line).opensComment := by
  obtain ⟨first, h, hread, hfirst, hsaid⟩ := ofLine_of_isRemark hreworded.remark
  obtain ⟨first', h', hread', hfirst', hsaid'⟩ := ofLine_of_isRemark hreworded.remark'
  obtain ⟨kept, hline, hline'⟩ := hreworded.kept
  rw [hline'] at hread'
  obtain ⟨rfl, hopen, hopen'⟩ := Lexeme.read_of_after (h := { ahead := line, inComment }) rfl hline
    rfl hread hfirst hread' hfirst'
  have hlength : line'.length = line.length := by
    rw [hline', List.length_append, hreworded.length, ← List.length_append, ← hline]
  rw [hsaid, hsaid', hlength, hopen, hopen']
  simp

/-! ## Programs -/

/-- **Remarks may say anything.** Take another edition of a program and of
its include files, as long and with the newlines in the same places, and
let every line that a listing fetches be there what it is here, or a
remark with another text. If of no remark the one text opens a comment right
behind `REM` that outlasts the line and the other does not, the listing of
the other edition has the same tokens, each of the same kind, text, value
and offset, or fails of the same cause. -/
theorem make_reworded {s t : Scanner} (hedition : s.Edition t)
    (hlines : ∀ s₁, Fetched s s₁ → ∀ line',
      t.line? s₁.position.file s₁.position.line = some line' →
      line' = s₁.head.line ∨
        ∃ text, Reworded s₁.options s₁.head.inComment s₁.head.line text line' ∧
          text.opensComment = (remarkText s₁.head.inComment s₁.head.line).opensComment) :
    SameOutcome (fun _ _ _ => True) (make s) (make t) := by
  refine make_edition hedition fun s₁ hfetched line' hline' => ?_
  rcases hlines s₁ hfetched line' hline' with rfl | ⟨text, hreworded, hopens⟩
  · rfl
  · exact (Statement.ofLine_reworded hreworded).mpr hopens

/-- In a program whose lines ask for no file and leave no comment open,
every line is fetched outside any comment. -/
theorem Fetches.of_ahead {s s₁ : Scanner} {options : Options} {lines : List Bytes}
    (hfetches : Fetches s s₁) (hoptions : s.options = options) (hahead : s.Ahead lines)
    (hcomment : s.head.inComment = false)
    (hlines : ∀ line ∈ lines, ∃ tokens,
      Statement.ofLine options false line = .ok (.tokens tokens, false)) :
    s₁.options = options ∧ s₁.head.inComment = false := by
  induction hfetches generalizing lines with
  | next hline =>
    obtain ⟨line, rest, stack, -, rfl, -⟩ := hahead.of_getLine hline
    exact ⟨hoptions, hcomment⟩
  | @later s _ _ _ _ hline hstatement _ ih =>
    subst hoptions
    obtain ⟨line, rest, stack, rfl, rfl, hrest⟩ := hahead.of_getLine hline
    obtain ⟨⟨tokens, hsaid⟩, hothers⟩ := List.forall_mem_cons.mp hlines
    -- performing tokens does nothing, so the head is all that moves on the line
    have hread := follows_readStatement
      (s := { s with stack, head := s.head.load line, saved := none }) rfl rfl
    rw [hcomment, hsaid] at hread
    obtain ⟨_, _, hread, rfl, head, hopen, rfl⟩ := hread
    rw [statement_eq, bind_of_ok hread] at hstatement
    cases hstatement
    exact ih rfl (hrest head) hopen hothers

/-- Two lines, `REM ab` and `PRINT 1`. -/
def remarkedLines : List Bytes := [[82, 69, 77, 32, 97, 98, 10], [80, 82, 73, 78, 84, 32, 49, 10]]

/-- With `/*` for its text the remark says the same: the look ends at the
blank before it. -/
theorem make_reworded_remarkedLines :
    SameOutcome (fun _ _ _ => True)
      (make (Scanner.start {} (.ofTexts []) (.ofBytes remarkedLines.flatten)))
      (make (Scanner.start {} (.ofTexts []) (.ofBytes
        [82, 69, 77, 32, 47, 42, 10, 80, 82, 73, 78, 84, 32, 49, 10]))) := by
  refine make_reworded ⟨rfl, ⟨rfl, rfl, rfl, rfl, by decide, by decide⟩, fun _ => .none, rfl⟩ ?_
  intro s₁ hfetched line' hline'
  have hthis := hfetched.line?
  obtain ⟨begun, ⟨⟩, hfetches⟩ := hfetched
  have hlines : ∀ line ∈ remarkedLines, ∃ tokens,
      Statement.ofLine {} false line = .ok (.tokens tokens, false) := by
    refine List.forall_mem_cons.mpr ⟨⟨[⟨.keyword .REM, "REM", 0, 0⟩, ⟨.endOfLine, "", 0, 7⟩], ?_⟩,
      List.forall_mem_singleton.mpr ⟨[⟨.keyword .PRINT, "PRINT", 0, 0⟩, ⟨.number, "1", 1, 6⟩,
        ⟨.endOfLine, "", 0, 8⟩], ?_⟩⟩ <;> decide +kernel
  obtain ⟨hoptions, hcomment⟩ := hfetches.of_ahead rfl
    ⟨⟨⟨fun _ => rfl, fun _ => rfl⟩, nofun⟩, by cbv⟩ rfl hlines
  rw [hoptions, hcomment]
  rcases hfile : s₁.position.file with _ | name <;> rw [hfile] at hthis hline'
  · have hlines : Bytes.logicalLines 128 remarkedLines.flatten = remarkedLines := by cbv
    have hlines' : Bytes.logicalLines 128
        [82, 69, 77, 32, 47, 42, 10, 80, 82, 73, 78, 84, 32, 49, 10] =
          [[82, 69, 77, 32, 47, 42, 10], [80, 82, 73, 78, 84, 32, 49, 10]] := by cbv
    simp only [Scanner.line?, Scanner.lines?, Scanner.start, Source.allLines_ofBytes, hlines,
      hlines', Option.bind_some] at hthis hline'
    rcases hnumber : s₁.position.line - 1 with _ | _ | n <;> rw [hnumber] at hthis hline'
    · cases hline'
      rw [← Option.some.inj hthis]
      exact .inr ⟨[32, 47, 42, 10], ⟨by decide +kernel, by decide +kernel, by decide +kernel,
        ⟨[82, 69, 77], by decide +kernel, rfl⟩⟩, by decide +kernel⟩
    · cases hline'
      exact .inl (Option.some.inj hthis)
    · cases hline'
  · cases hthis

/-- A comment right behind `REM` is read by the look, and goes on behind the
line: of `REM/*x` and `PRINT 1` the second is lost, but not of `REM xx` and
`PRINT 1`. -/
theorem make_comment_behind_remark :
    let text : Bytes := [47, 42, 120, 10]
    let other : Bytes := [32, 120, 120, 10]
    let print : Bytes := [80, 82, 73, 78, 84, 32, 49, 10]
    let listing (text : Bytes) :=
      make (Scanner.start {} (.ofTexts []) (.ofBytes ([82, 69, 77] ++ text ++ print)))
    Reworded {} false ([82, 69, 77] ++ other) text ([82, 69, 77] ++ text) ∧
      (∃ s, listing other = .ok [⟨.keyword .REM, "REM", 0, 0⟩, ⟨.endOfLine, "", 0, 7⟩,
        ⟨.keyword .PRINT, "PRINT", 0, 0⟩, ⟨.number, "1", 1, 6⟩, ⟨.endOfLine, "", 0, 8⟩,
        ⟨.endOfFile, "", 0, 0⟩] s) ∧
      ∃ s, listing text = .ok [⟨.keyword .REM, "REM", 0, 0⟩, ⟨.endOfLine, "", 0, 7⟩,
        ⟨.endOfLine, "", 0, 8⟩, ⟨.endOfFile, "", 0, 0⟩] s := by
  intro text other print listing
  have hprint : Statement.ofLine {} false print = .ok (.tokens [⟨.keyword .PRINT, "PRINT", 0, 0⟩,
      ⟨.number, "1", 1, 6⟩, ⟨.endOfLine, "", 0, 8⟩], false) := by decide +kernel
  have hlost : Statement.ofLine {} true print = .ok (.tokens [⟨.endOfLine, "", 0, 8⟩], true) := by
    decide +kernel
  have hremark : Statement.ofLine {} false ([82, 69, 77] ++ other) =
      .ok (.tokens [⟨.keyword .REM, "REM", 0, 0⟩, ⟨.endOfLine, "", 0, 7⟩], false) := by
    decide +kernel
  have hopens : Statement.ofLine {} false ([82, 69, 77] ++ text) =
      .ok (.tokens [⟨.keyword .REM, "REM", 0, 0⟩, ⟨.endOfLine, "", 0, 7⟩], true) := by
    decide +kernel
  have hlines : Bytes.logicalLines 128 ([82, 69, 77] ++ other ++ print) =
      [[82, 69, 77] ++ other, print] := by cbv
  have hlines' : Bytes.logicalLines 128 ([82, 69, 77] ++ text ++ print) =
      [[82, 69, 77] ++ text, print] := by cbv
  refine ⟨⟨by decide +kernel, by decide +kernel, by decide +kernel,
    ⟨[82, 69, 77], by decide +kernel, rfl⟩⟩, ?_, ?_⟩ <;> refine (follows_make _ _ _).of_toOption ?_
  · rw [expansion, hlines, expand_tokens _ hremark, expand_tokens _ hprint, expand]
    rfl
  · rw [expansion, hlines', expand_tokens _ hopens, expand_tokens _ hlost, expand]
    rfl

end Listing

end BasicLexer
