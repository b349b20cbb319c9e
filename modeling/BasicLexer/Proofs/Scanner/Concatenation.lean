import BasicLexer.Proofs.Input.Chunks
import BasicLexer.Proofs.Scanner.Outcome

/-!
# Scanner — programs one after the other

A text that is empty or ends with a newline has the lines it has alone,
whatever comes after it (`Bytes.logicalLines_append`), and nothing goes from
line to line but whether a block comment is open. So where the scan of such
a text leaves none open, what comes after it is scanned as if it were all
there is: with the same tokens, or the same diagnostic so many lines further
down (`Scan.scanAll_append`).
-/

namespace BasicLexer

namespace Bytes

/-! ## Lines of texts put together -/

variable {text : Bytes}

/-- A text that ends with a newline is cut as it is alone, whatever comes
after it. -/
theorem firstLine_append_of_newline (room : Nat) (hends : text.getLast? = some Byte.newline)
    (more : Bytes) :
    firstLine room (text ++ more) = ((firstLine room text).1, (firstLine room text).2 ++ more) := by
  induction text generalizing room with
  | nil => cases hends
  | cons b rest ih =>
    rw [List.cons_append, firstLine, firstLine]
    by_cases hstop : b = Byte.newline ∨ room ≤ 1
    · rw [if_pos hstop, if_pos hstop]
    · have hrest : rest.getLast? = some Byte.newline := by
        cases rest with
        | nil => exact absurd (.inl (Option.some.inj hends)) hstop
        | cons c rest => rwa [List.getLast?_cons_cons] at hends
      rw [if_neg hstop, if_neg hstop, ih (room - 1) hrest]

/-- **The lines of a text put before another** are its own and then those of
the other, if it is empty or ends with a newline. -/
theorem logicalLines_append (limit : Nat) (hends : text = [] ∨ text.getLast? = some Byte.newline)
    (more : Bytes) :
    logicalLines limit (text ++ more) = logicalLines limit text ++ logicalLines limit more := by
  fun_induction pieces limit text with
  | case1 => rw [logicalLines_nil, List.nil_append, List.nil_append]
  | case2 b rest ih =>
    have hnewline := hends.resolve_left (List.cons_ne_nil b rest)
    have hcut := firstLine_append_of_newline (max limit 1) hnewline more
    rw [List.cons_append] at hcut ⊢
    rw [logicalLines_cons, logicalLines_cons, hcut, List.cons_append, ih]
    -- what the first line leaves ends where the text does
    by_cases hleft : (firstLine (max limit 1) (b :: rest)).2 = []
    · exact .inl hleft
    · rw [← firstLine_append_rest (max limit 1) (b :: rest),
        List.getLast?_append_of_ne_nil _ hleft] at hnewline
      exact .inr hnewline

end Bytes

namespace Scan

open Bytes

variable {options : Options} {number : Nat} {inComment isOpen : Bool}
variable {lines : List Bytes} {tokens : List Token}

/-! ## Outcomes put together -/

/-- **Lines that are scanned to their end** are scanned before any others. -/
theorem outcome_append (more : List Bytes)
    (hlines : outcome options number inComment lines = .ok (tokens, isOpen)) :
    ∃ these, tokens = these ++ [Listing.endToken] ∧
      outcome options number inComment (lines ++ more) =
        (outcome options (number + lines.length) isOpen more).map
          fun found => (these ++ found.1, found.2) := by
  induction lines generalizing number inComment tokens with
  | nil =>
    cases hlines
    refine ⟨[], rfl, ?_⟩
    show outcome options number isOpen more = (outcome options number isOpen more).map id
    rw [Except.map_id, id_eq]
  | cons line rest ih =>
    obtain ⟨first, h, others, hread, hrest, rfl⟩ := outcome_cons_eq_ok hlines
    obtain ⟨these, rfl, happend⟩ := ih hrest
    have hnumber : number + 1 + rest.length = number + (line :: rest).length := by
      rw [List.length_cons]
      omega
    refine ⟨first ++ these, (List.append_assoc ..).symm, ?_⟩
    rw [List.cons_append, outcome_of_line _ _ hread, happend, hnumber]
    cases outcome options (number + (line :: rest).length) isOpen more with
    | error failure => rfl
    | ok found => simp only [Except.map, List.append_assoc]

/-- **A text is scanned, and then what comes after it.** Let a text be
empty or end with a newline, and let its scan give tokens and leave no block
comment open. Then with another text behind it a scan gives those tokens, but
for the end of the file, and then the tokens of the other text; and where
the other text fails, so do the two together, of the same diagnostic but for
the line number, to which the logical lines of the first text are added. -/
theorem scanAll_append (options : Options) (resolver : Resolver) {text : Bytes} (more : Bytes)
    {s : Scanner} (hends : text = [] ∨ text.getLast? = some Byte.newline)
    (hscan : scanAll (.start options resolver (.ofBytes text)) = .ok tokens s)
    (hclosed : s.head.inComment = false) :
    ∃ these, tokens = these ++ [Listing.endToken] ∧
      match scanAll (.start options resolver (.ofBytes more)) with
      | .ok others _ => ∃ s',
        scanAll (.start options resolver (.ofBytes (text ++ more))) = .ok (these ++ others) s'
      | .error failure _ => ∃ d p s', failure = .reported d ∧ d.position = some p ∧
        scanAll (.start options resolver (.ofBytes (text ++ more))) =
          .error (.reported { d with position := some { p with
            line := p.line + (logicalLines options.maxLine text).length } }) s' := by
  have hfirst := outcome_of_scanAll hscan
  rw [hclosed] at hfirst
  obtain ⟨these, htokens, happend⟩ := outcome_append (logicalLines options.maxLine more) hfirst
  have hmoved := outcome_number options 0 (logicalLines options.maxLine text).length false
    (logicalLines options.maxLine more)
  have hboth := scanAll_start options resolver (text ++ more)
  rw [logicalLines_append _ hends, happend] at hboth
  refine ⟨these, htokens, ?_⟩
  rcases scanAll_start_cases options resolver more with
    ⟨others, s₁, hrun, hother⟩ | ⟨d, _, s₁, hrun, -, hother⟩ <;> rw [hother] at hmoved
  · rw [hmoved] at hboth
    obtain ⟨s₂, hrun₂, -⟩ := hboth
    rw [hrun]
    exact ⟨s₂, hrun₂⟩
  · obtain ⟨_, p, hd, hplace, hfails⟩ := hmoved
    cases hd
    rw [hfails] at hboth
    obtain ⟨s₂, hrun₂⟩ := hboth
    rw [hrun]
    exact ⟨d, p, s₂, rfl, hplace, hrun₂⟩

/-- Two lines with a comment over both, `/*x` and `*/END IF`. -/
def closedComment : Bytes := [47, 42, 120, 10, 42, 47, 69, 78, 68, 32, 73, 70, 10]

/-- A quote that is not closed fails on the first line when it is alone, and
on the third behind those two. -/
theorem scanAll_append_closedComment :
    let run (text : Bytes) := scanAll (.start {} (.ofTexts []) (.ofBytes text))
    let fault (line : Nat) := Diagnostic.ofCause .unterminatedString
      (some { line, text := "\"\n", column := 0 })
    ∃ tokens s₁ s₂ s₃, run closedComment = .ok tokens s₁ ∧ s₁.head.inComment = false ∧
      run [34, 10] = .error (.reported (fault 1)) s₂ ∧
      run (closedComment ++ [34, 10]) = .error (.reported (fault 3)) s₃ := by
  have hclosed := scanAll_start {} (.ofTexts []) closedComment
  have hquote := scanAll_start {} (.ofTexts []) [34, 10]
  have htokens : outcome {} 0 false (logicalLines 128 closedComment) =
      .ok ([{ kind := .endOfLine, offset := 4 },
        { kind := .compound .endIf, text := "END IF", offset := 2 },
        { kind := .endOfLine, offset := 9 }, Listing.endToken], false) := by
    decide +kernel
  have hfails : outcome {} 0 false (logicalLines 128 [34, 10]) =
      .error (.reported (.ofCause .unterminatedString
        (some { line := 1, text := "\"\n", column := 0 }))) := by
    decide +kernel
  have hlength : (logicalLines 128 closedComment).length = 2 := by decide +kernel
  rw [htokens] at hclosed
  rw [hfails] at hquote
  obtain ⟨s₁, hrun, hoff⟩ := hclosed
  obtain ⟨s₂, herror⟩ := hquote
  obtain ⟨_, -, hmore⟩ := scanAll_append {} (.ofTexts []) [34, 10] (.inr rfl) hrun hoff
  rw [herror] at hmore
  obtain ⟨d, p, s₃, hd, hplace, hboth⟩ := hmore
  cases hd
  cases hplace
  rw [hlength] at hboth
  exact ⟨_, s₁, s₂, s₃, hrun, hoff, herror, hboth⟩

end Scan

end BasicLexer
