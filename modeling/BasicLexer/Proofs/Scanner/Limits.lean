import BasicLexer.Proofs.Reading.Limits
import BasicLexer.Proofs.Scanner.Outcome

/-!
# Scanner — limits only refuse

The limits on words, strings and numbers are carried over from the tokens of
a line to those of a program: a scan under eased limits comes to the same,
diagnostic and place included, unless it was refused for a limit before
(`Scan.scanAll_of_eased`). The limit on lines is none of them: it says where
lines end.
-/

namespace BasicLexer

namespace Scan

variable {options eased : Options}

/-- **Eased limits change no outcome** but that of a scan that was refused for
one. -/
theorem outcome_of_eased (hoptions : options.Eases eased) (number : Nat) (inComment : Bool)
    (lines : List Bytes) :
    outcome eased number inComment lines = outcome options number inComment lines ∨
      ∃ d, outcome options number inComment lines = .error (.reported d) ∧
        d.code ∈ Cause.limitCodes := by
  induction lines generalizing number inComment with
  | nil => exact .inl rfl
  | cons line rest ih =>
    rw [outcome, outcome]
    rcases Lexeme.eases_readTokens hoptions { ahead := line, inComment } with
      hsame | ⟨cause, h, hrun, hlimit⟩
    · rw [hsame]
      rcases Lexeme.readTokens options { ahead := line, inComment } with
        ⟨these, h⟩ | ⟨cause | breach, h⟩
      · rcases ih (number + 1) h.inComment with hrest | ⟨d, hrest, hlimit⟩
        · exact .inl (congrArg (Except.map _) hrest)
        · exact .inr ⟨d, congrArg (Except.map _) hrest, hlimit⟩
      · exact .inl rfl
      · exact .inl rfl
    · rw [hrun]
      exact .inr ⟨_, rfl, hlimit⟩

/-- **Limits refuse, and do nothing else.** Let options have the same limit on
lines, allow no shorter words and strings, and let through all numbers or be
as strict with them. Then a program that is scanned is scanned to the same
tokens under them, and one that fails, but not for a limit, fails of the same
diagnostic at the same place. -/
theorem scanAll_of_eased (resolver resolver' : Resolver)
    (hline : eased.maxLine = options.maxLine) (htoken : options.maxToken ≤ eased.maxToken)
    (hoverflow :
      eased.literalOverflow = .wrap ∨ eased.literalOverflow = options.literalOverflow)
    (program : Bytes) :
    match scanAll (.start options resolver (.ofBytes program)) with
    | .ok tokens _ =>
      ∃ s, scanAll (.start eased resolver' (.ofBytes program)) = .ok tokens s
    | .error failure _ => ∃ d, failure = .reported d ∧
      (d.code ∉ Cause.limitCodes →
        ∃ s, scanAll (.start eased resolver' (.ofBytes program)) = .error (.reported d) s) := by
  have hsame := outcome_of_eased ⟨htoken, hoverflow⟩ 0 false
    (Bytes.logicalLines options.maxLine program)
  have heased := scanAll_start eased resolver' program
  rw [hline] at heased
  rcases scanAll_start_cases options resolver program with
    ⟨tokens, s, hrun, houtcome⟩ | ⟨d, _, s, hrun, -, houtcome⟩ <;>
    rw [hrun] <;> rw [houtcome] at hsame
  · rcases hsame with hkept | ⟨_, hrefused, -⟩
    · rw [hkept] at heased
      obtain ⟨s', hrun', -⟩ := heased
      exact ⟨s', hrun'⟩
    · cases hrefused
  · refine ⟨d, rfl, fun hother => ?_⟩
    rcases hsame with hkept | ⟨_, hrefused, hlimit⟩
    · rw [hkept] at heased
      exact heased
    · cases hrefused
      exact absurd hlimit hother

/-- Words of two bytes and no number out of range. -/
def strictOptions : Options := { maxToken := 2, literalOverflow := .error }

/-- `IF 'x` fails of its quote, strictly or not. -/
theorem scanAll_of_eased_strictOptions :
    let d := Diagnostic.ofCause .expectingClosingQuote
      (some { line := 1, text := "IF 'x\n", column := 3 })
    let program : Source := .ofBytes [73, 70, 32, 39, 120, 10]
    ∃ s s', scanAll (.start strictOptions (.ofTexts []) program) = .error (.reported d) s ∧
      scanAll (.start {} (.ofTexts []) program) = .error (.reported d) s' := by
  intro d program
  have hstrict := scanAll_start strictOptions (.ofTexts []) [73, 70, 32, 39, 120, 10]
  have hfails : outcome strictOptions 0 false
      (Bytes.logicalLines strictOptions.maxLine [73, 70, 32, 39, 120, 10]) =
        .error (.reported d) := by
    decide +kernel
  rw [hfails] at hstrict
  obtain ⟨s, hrun⟩ := hstrict
  have hline : Options.maxLine {} = strictOptions.maxLine := rfl
  have heased := scanAll_of_eased (.ofTexts []) (.ofTexts []) hline (by decide) (.inl rfl)
    [73, 70, 32, 39, 120, 10]
  rw [hrun] at heased
  obtain ⟨_, hd, hsame⟩ := heased
  cases hd
  obtain ⟨s', hrun'⟩ := hsame (by decide)
  exact ⟨s, s', hrun, hrun'⟩

end Scan

end BasicLexer
