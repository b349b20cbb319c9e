import BasicLexer.Proofs.Reading.Respelled
import BasicLexer.Proofs.Scanner.Outcome

/-!
# Scanner — a program spelled in another way

Where every line of a program is spelled in another way, scans of the two
programs tally: both come to tokens that say the same, in the same number, or
both fail, on lines of the same number and of causes that answer each other
(`Respelling.outcomes_scanAll`).
-/

namespace BasicLexer

namespace Respelling

variable (R : Respelling)

/-- Two lines in the two spellings, inside a block comment or not. -/
def Lines (line line' : Bytes) : Prop :=
  ∀ inComment, R.heads { ahead := line, inComment } { ahead := line', inComment }

/-- Two diagnostics of causes that answer each other, at the same line. -/
inductive Diagnostics : Failure Diagnostic → Failure Diagnostic → Prop
  | same {cause cause' : Cause} {h h' : Head} (number : Nat) {line line' : Bytes}
      (hrefused : R.refused (cause, h) (cause', h')) (hlines : R.Lines line line') :
      Diagnostics
        (.reported (.ofCause cause
          (some { line := number, text := line.text, column := h.tokenStart })))
        (.reported (.ofCause cause'
          (some { line := number, text := line'.text, column := h'.tokenStart })))

/-- Whether two scans tally: both come to tokens that say the same, with a
block comment open at the end or not, or both fail of diagnostics at the same
line. -/
inductive Outcomes : Except (Failure Diagnostic) (List Token × Bool) →
    Except (Failure Diagnostic) (List Token × Bool) → Prop
  | ok {tokens tokens' : List Token} (htokens : List.Forall₂ R.Tokens tokens tokens')
      (isOpen : Bool) : Outcomes (.ok (tokens, isOpen)) (.ok (tokens', isOpen))
  | error {failure failure' : Failure Diagnostic} (hsame : R.Diagnostics failure failure') :
      Outcomes (.error failure) (.error failure')

variable {R} {options : Options}

/-- **Line by line**, scans of the two programs tally. -/
theorem outcomes_outcome {lines lines' : List Bytes} (hlines : List.Forall₂ R.Lines lines lines')
    (number : Nat) (inComment : Bool) :
    R.Outcomes (Scan.outcome options number inComment lines)
      (Scan.outcome options number inComment lines') := by
  induction hlines generalizing number inComment with
  | nil =>
    have hend : R.Tokens Listing.endToken Listing.endToken := ⟨rfl, rfl, ⟨[], rfl, rfl⟩, rfl⟩
    exact .ok (.cons hend .nil) inComment
  | @cons line line' lines lines' hline _ ih =>
    have htally : R.Runs (List.Forall₂ R.Tokens) (Lexeme.readTokens options _)
        (Lexeme.readTokens options _) := R.tally_readTokens (hline inComment)
    rw [Scan.outcome, Scan.outcome]
    generalize Lexeme.readTokens options { ahead := line, inComment } = run at htally
    generalize Lexeme.readTokens options { ahead := line', inComment } = run' at htally
    cases htally with
    | error hrefused => exact .error (.same (number + 1) hrefused hline)
    | @ok these these' h h' hthese hheads =>
      have hrest := ih (number + 1) h.inComment
      dsimp only
      rw [R.inComment hheads]
      generalize Scan.outcome options (number + 1) h.inComment lines = rest at hrest
      generalize Scan.outcome options (number + 1) h.inComment lines' = rest' at hrest
      cases hrest with
      | error hsame => exact .error hsame
      | ok htokens isOpen => exact .ok (List.rel_append hthese htokens) isOpen

/-- **So do scans of all tokens**: what the scans come to, from any include
files there may be. -/
theorem outcomes_scanAll {program program' : Bytes} (resolver resolver' : Resolver)
    (hlines : List.Forall₂ R.Lines (Bytes.logicalLines options.maxLine program)
      (Bytes.logicalLines options.maxLine program')) :
    (∃ tokens tokens' s s',
        Scan.scanAll (.start options resolver (.ofBytes program)) = .ok tokens s ∧
        Scan.scanAll (.start options resolver' (.ofBytes program')) = .ok tokens' s' ∧
        List.Forall₂ R.Tokens tokens tokens') ∨
      ∃ failure failure' s s',
        Scan.scanAll (.start options resolver (.ofBytes program)) = .error failure s ∧
        Scan.scanAll (.start options resolver' (.ofBytes program')) = .error failure' s' ∧
        R.Diagnostics failure failure' := by
  have hends := Scan.scanAll_start options resolver program
  have hends' := Scan.scanAll_start options resolver' program'
  have houtcomes : R.Outcomes (Scan.outcome options 0 false _) (Scan.outcome options 0 false _) :=
    outcomes_outcome hlines 0 false
  generalize Scan.outcome options 0 false (Bytes.logicalLines options.maxLine program) = value
    at hends houtcomes
  generalize Scan.outcome options 0 false (Bytes.logicalLines options.maxLine program') = value'
    at hends' houtcomes
  cases houtcomes with
  | ok htokens isOpen =>
    obtain ⟨s, hrun, -⟩ := hends
    obtain ⟨s', hrun', -⟩ := hends'
    exact .inl ⟨_, _, s, s', hrun, hrun', htokens⟩
  | error hsame =>
    obtain ⟨s, hrun⟩ := hends
    obtain ⟨s', hrun'⟩ := hends'
    exact .inr ⟨_, _, s, s', hrun, hrun', hsame⟩

end Respelling

end BasicLexer
