import BasicLexer.Proofs.Reading.Redacted
import BasicLexer.Proofs.Scanner.EveryToken

/-!
# Scanner — comments are no program text

What stands in a comment has no part in the tokens of a program without
quotes: with other bytes there, every token is the same, and so is where it
is (`Scan.scanAll_redacted`). A comment is one of logical lines, though. Where
a line is cut for its length the cut ends a comment of two slashes, and
what stands behind the cut is program text; and a newline in a block
comment ends a line, so it is not for other bytes to take its place
(`Scan.scanAll_comment_read`).
-/

namespace BasicLexer

open Bytes

namespace Head

/-- What is shown of a line is on it. -/
theorem mem_ahead_of_mem_visible {h : Head} {b : Byte} (hb : b ∈ h.visible) : b ∈ h.ahead := by
  fun_induction visible h with
  | case1 h c hnext ih =>
    obtain ⟨skipped, after, hahead, -, hmoved⟩ := next_of_some hnext
    rw [hmoved] at ih hb
    rw [hahead]
    rcases List.mem_cons.mp hb with rfl | hb
    · exact List.mem_append_right _ List.mem_cons_self
    · exact List.mem_append_right _ (List.mem_cons_of_mem _ (ih hb))
  | case2 h hnext => cases hb

end Head

namespace Lexeme

/-- The tokens of a line without quotes, and what it leaves open. -/
theorem tokensOf_of_unquoted (options : Options) (inComment : Bool) {line : Bytes}
    (hquotes : ∀ b ∈ line, b ≠ Byte.doubleQuote ∧ b ≠ Byte.singleQuote) :
    tokensOf options inComment line =
      (ofScan (Grammar.scan options line.length (Head.sights { ahead := line, inComment }))).map
        (·, Head.leavesOpen { ahead := line, inComment }) := by
  have htokens := tokensAt_of_unquoted options (h := { ahead := line, inComment }) rfl
    fun b hb => hquotes b (Head.mem_ahead_of_mem_visible hb)
  have hlength : Head.lineLength { ahead := line, inComment } = line.length := Nat.zero_add _
  rw [hlength] at htokens
  exact htokens

/-- **Redacted lines have the same tokens**, and leave the same open. -/
theorem tokensOf_redacted (options : Options) {inComment isOpen : Bool} {line line' : Bytes}
    (hline : Redacted inComment line line' isOpen)
    (hquotes : ∀ b ∈ line, b ≠ Byte.doubleQuote ∧ b ≠ Byte.singleQuote) :
    tokensOf options inComment line' = tokensOf options inComment line ∧
      ∀ tokens next, tokensOf options inComment line = .ok (tokens, next) → next = isOpen := by
  let h : Head := { ahead := line, inComment }
  let h' : Head := { ahead := line', inComment }
  have hahead : Redacted h.inComment h.ahead h'.ahead isOpen := hline
  obtain ⟨hsights, hopen, hopen'⟩ := Head.sights_of_redacted hahead rfl rfl
  have hlength : line'.length = line.length :=
    length_eq_of_layout (layout_of_standsFor hline.standsFor)
  rw [tokensOf_of_unquoted options inComment hquotes,
    tokensOf_of_unquoted options inComment (hline.not_quote hquotes), hsights, hopen, hopen',
    hlength]
  refine ⟨rfl, fun tokens next hfound => ?_⟩
  cases hscan : ofScan (Grammar.scan options line.length
      (Head.sights { ahead := line, inComment })) <;> rw [hscan] at hfound <;> cases hfound
  rfl

end Lexeme

namespace Stream

/-- **Redacted texts have the same tokens.** -/
theorem tokensOf_redacted (options : Options) {inComment : Bool} {lines lines' : List Bytes}
    (hlines : RedactedLines inComment lines lines')
    (hquotes : ∀ line ∈ lines, ∀ b ∈ line, b ≠ Byte.doubleQuote ∧ b ≠ Byte.singleQuote) :
    tokensOf options inComment lines' = tokensOf options inComment lines := by
  induction hlines with
  | nil => rfl
  | cons hline _ ih =>
    obtain ⟨hfirst, hrest⟩ := List.forall_mem_cons.mp hquotes
    obtain ⟨hsame, hopen⟩ := Lexeme.tokensOf_redacted options hline hfirst
    rw [tokensOf, tokensOf, hsame]
    split
    · rfl
    · rename_i these next hfound
      rw [hopen these next hfound, ih hrest]

end Stream

namespace Scan

/-- Cutting a text into lines brings no quote. -/
theorem not_quote_of_mem_logicalLines {limit : Nat} {text : Bytes}
    (hquotes : ∀ b ∈ text, b ≠ Byte.doubleQuote ∧ b ≠ Byte.singleQuote) :
    ∀ line ∈ logicalLines limit text, ∀ b ∈ line, b ≠ Byte.doubleQuote ∧ b ≠ Byte.singleQuote := by
  intro line hline b hb
  obtain ⟨piece, hpiece, rfl⟩ := List.mem_map.mp hline
  have hmem : b ∈ piece ∨ b = Byte.newline := by
    rw [terminated] at hb
    split at hb
    · exact .inl hb
    · simpa using hb
  rcases hmem with hmem | rfl
  · refine hquotes b ?_
    rw [← (divided_pieces limit text).whole]
    exact List.mem_flatten.mpr ⟨piece, hpiece, hmem⟩
  · decide

/-- **What stands in comments is no program text.** Take any program without
quotes, and put other bytes in the comments of its logical lines: behind
two slashes to the end of the line, and between the opener of a block
comment and its closer, however many lines on, each byte but a newline for
one that is no newline, no quote, no slash and no asterisk. Then under any
options the scan gives the same tokens, each of the same kind, text, value
and offset, or fails of the same cause. -/
theorem scanAll_redacted (options : Options) (resolver : Resolver) {program : Bytes}
    {lines : List Bytes} (hquotes : ∀ b ∈ program, b ≠ Byte.doubleQuote ∧ b ≠ Byte.singleQuote)
    (hlines : RedactedLines false (pieces options.maxLine program) lines) :
    SameOutcome (fun _ _ _ => True)
      (scanAll (Scanner.start options resolver (.ofBytes program)))
      (scanAll (Scanner.start options resolver (.ofBytes lines.flatten))) := by
  have hsame := Stream.tokensOf_redacted options hlines.logicalLines
    (not_quote_of_mem_logicalLines hquotes)
  have hrun := follows_scanAll (.start options resolver program)
  have hrun' := follows_scanAll (.start options resolver lines.flatten)
  refine .of_follows hrun (hsame ▸ hrun') fun _ _ _ _ _ htokens htokens' => ⟨?_, trivial⟩
  exact htokens'.trans htokens.symm

/-- Three lines, the first too long for six bytes: `A//BCDE`, `/*F` and
`*/G`. -/
def commentedProgram : Bytes :=
  [65, 47, 47, 66, 67, 68, 69, 10, 47, 42, 70, 10, 42, 47, 71, 10]

/-- Other bytes in their comments. The `E` behind the cut is in none. -/
theorem scanAll_redacted_commentedProgram :
    SameOutcome (fun _ _ _ => True)
      (scanAll (Scanner.start { maxLine := 6 } (.ofTexts []) (.ofBytes commentedProgram)))
      (scanAll (Scanner.start { maxLine := 6 } (.ofTexts []) (.ofBytes
        [65, 47, 47, 88, 89, 90, 69, 10, 47, 42, 88, 10, 42, 47, 71, 10]))) := by
  have hpieces : pieces 6 commentedProgram =
      [[65, 47, 47, 66, 67, 68], [69, 10], [47, 42, 70, 10], [42, 47, 71, 10]] := by cbv
  have hlines : RedactedLines false (pieces 6 commentedProgram)
      [[65, 47, 47, 88, 89, 90], [69, 10], [47, 42, 88, 10], [42, 47, 71, 10]] := by
    have hslashes : Redacted false [65, 47, 47, 66, 67, 68] [65, 47, 47, 88, 89, 90] false :=
      .text (by decide) (.slashes (.cons (by decide) (.cons (by decide) (.cons (by decide) .nil))))
    have hrest : Redacted false [69, 10] [69, 10] false :=
      .text (by decide) (.text (by decide) (.done _))
    have hopener : Redacted false [47, 42, 70, 10] [47, 42, 88, 10] true :=
      .opener (.inside (by decide) (by decide) (.inside (by decide) (by decide) (.done _)))
    have hcloser : Redacted true [42, 47, 71, 10] [42, 47, 71, 10] false :=
      .closer (.text (by decide) (.text (by decide) (.done _)))
    rw [hpieces]
    exact .cons hslashes (.cons hrest (.cons hopener (.cons hcloser .nil)))
  exact scanAll_redacted { maxLine := 6 } (.ofTexts []) (by decide +kernel) hlines

/-- Comments of whole lines are something else. Cut after three bytes,
`//AB` has `B` for a token, and with `CD` behind the slashes it has `D`. And
`END` and `IF` with a comment of two lines between them are two keywords, but
one where the comment has a byte in the place of its newline. -/
theorem scanAll_comment_read :
    let scan (options : Options) (program : Bytes) :=
      scanAll (Scanner.start options (.ofTexts []) (.ofBytes program))
    let token (kind : Kind) (text : String) (offset : Nat) : Token := { kind, text, offset }
    ((∃ s, scan { maxLine := 3 } [47, 47, 65, 66, 10] =
        .ok [token .endOfLine "" 4, token .identifier "B" 0, token .endOfLine "" 2,
          token .endOfFile "" 0] s) ∧
      ∃ s, scan { maxLine := 3 } [47, 47, 67, 68, 10] =
        .ok [token .endOfLine "" 4, token .identifier "D" 0, token .endOfLine "" 2,
          token .endOfFile "" 0] s) ∧
    (∃ s, scan { maxLine := 128 } [69, 78, 68, 32, 47, 42, 10, 42, 47, 32, 73, 70, 10] =
        .ok [token (.keyword .END) "END" 0, token .endOfLine "" 7, token (.keyword .IF) "IF" 3,
          token .endOfLine "" 6, token .endOfFile "" 0] s) ∧
      ∃ s, scan { maxLine := 128 } [69, 78, 68, 32, 47, 42, 88, 42, 47, 32, 73, 70, 10] = .ok
        [token (.compound .endIf) "END IF" 0, token .endOfLine "" 13, token .endOfFile "" 0] s := by
  refine ⟨⟨?_, ?_⟩, ?_, ?_⟩ <;>
    exact (follows_scanAll (.start _ _ _)).of_toOption (by decide +kernel)

end Scan

end BasicLexer
