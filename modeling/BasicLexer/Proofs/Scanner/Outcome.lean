import BasicLexer.Proofs.Scanner.AllLines
import BasicLexer.Proofs.Scanner.LineByLine

/-!
# Scanner — the outcome of a scan

With nothing but the program open, a scan of all tokens goes by the lines
ahead, and by two things more that the scanner holds: how many lines came
before, which nothing but a diagnostic tells, and whether a block comment is
open. `Scan.outcome` is what it comes to, told without a scanner, and a scan
ends as it says (`Scan.scanAll_of_ahead`).
-/

namespace BasicLexer

namespace Scan

variable {s s' : Scanner}

/-- With only the program open, a fetch counts one line of it. -/
theorem stack_getLine_of_program (hprogram : s.stack.includes = [])
    (hline : getLine s = .ok true s') :
    s'.stack.includes = [] ∧ s'.stack.programLine = s.stack.programLine + 1 := by
  obtain ⟨b, raw, stack, hfetch, rfl⟩ := fetch_of_getLine hline
  rw [Stack.fetch, hprogram, Stack.fetchFrom] at hfetch
  rcases hread : s.stack.program.fetch s.options.maxLine with ⟨_ | line, program⟩ <;>
    rw [hread] at hfetch <;> cases hfetch
  exact ⟨rfl, rfl⟩

/-- Where there is no line, a block comment stays open or is none. -/
theorem inComment_getLine_of_end (hline : getLine s = .ok false s') :
    s'.head.inComment = s.head.inComment := by
  obtain ⟨_, -, rfl⟩ := fetch_of_getLine_end hline
  rfl

/-- A line of the program is read to its end, or a token of it fails; the
diagnostic then tells the line that was loaded, for no reader changes it. -/
theorem readTokens_of_program (hprogram : s.stack.includes = []) :
    match Lexeme.readTokens s.options s.head with
    | .ok these h => readTokens s = .ok these { s with head := h }
    | .error (.reported cause) h =>
      ∃ s', readTokens s = .error (.reported (.ofCause cause (some
        { line := s.stack.programLine, text := s.head.line.text, column := h.tokenStart }))) s'
    | .error (.breach _) _ => False := by
  have hread : readTokens s = reading (Lexeme.readTokens s.options) s := rfl
  simp only [reading] at hread
  rcases htokens : Lexeme.readTokens s.options s.head with ⟨these, h⟩ | ⟨cause | breach, h⟩ <;>
    rw [htokens] at hread
  · exact hread
  · have hkept := ((Lexeme.orderly_readTokens s.options).along_of_reported htokens).line
    have hplace : Scanner.position { s with head := h } =
        { line := s.stack.programLine, text := s.head.line.text, column := h.tokenStart } := by
      simp only [Scanner.position, Scanner.activeFile, Stack.active?, Stack.line, hprogram, hkept]
      rfl
    dsimp only
    rw [← hplace]
    exact ⟨_, hread⟩
  · exact (Lexeme.orderly_readTokens s.options).not_breach htokens

/-- What a scan of the lines of a program comes to, behind `number` other
lines and inside a block comment or not: all tokens and whether a comment is
open at the end, or the diagnostic that it fails of. -/
def outcome (options : Options) (number : Nat) (inComment : Bool) :
    List Bytes → Except (Failure Diagnostic) (List Token × Bool)
  | [] => .ok ([Listing.endToken], inComment)
  | line :: rest =>
    match Lexeme.readTokens options { ahead := line, inComment } with
    | .ok these h =>
      (outcome options (number + 1) h.inComment rest).map fun more => (these ++ more.1, more.2)
    | .error (.reported cause) h =>
      .error (.reported (.ofCause cause
        (some { line := number + 1, text := line.text, column := h.tokenStart })))
    | .error (.breach breach) _ => .error (.breach breach)

section Lines

variable {options : Options} {number : Nat} {inComment isOpen : Bool} {line : Bytes}
variable {rest : List Bytes} {tokens : List Token}

theorem outcome_of_line {these : List Token} {h : Head} (number : Nat) (rest : List Bytes)
    (hread : Lexeme.readTokens options { ahead := line, inComment } = .ok these h) :
    outcome options number inComment (line :: rest) =
      (outcome options (number + 1) h.inComment rest).map
        fun more => (these ++ more.1, more.2) := by
  rw [outcome, hread]

/-- Where all lines are scanned, so is the first, and then all others. -/
theorem outcome_cons_eq_ok
    (houtcome : outcome options number inComment (line :: rest) = .ok (tokens, isOpen)) :
    ∃ these h more, Lexeme.readTokens options { ahead := line, inComment } = .ok these h ∧
      outcome options (number + 1) h.inComment rest = .ok (more, isOpen) ∧
      tokens = these ++ more := by
  rw [outcome] at houtcome
  rcases hread : Lexeme.readTokens options { ahead := line, inComment } with
    ⟨these, h⟩ | ⟨_ | _, _⟩ <;> rw [hread] at houtcome
  · dsimp only at houtcome
    cases hrest : outcome options (number + 1) h.inComment rest with
    | error failure =>
      rw [hrest] at houtcome
      cases houtcome
    | ok found =>
      rw [hrest] at houtcome
      cases houtcome
      exact ⟨these, h, found.1, rfl, hrest, rfl⟩
  · cases houtcome
  · cases houtcome

end Lines

/-- The number of lines before shows in the diagnostic alone, and a scan
fails of nothing but diagnostics with a place. -/
theorem outcome_number (options : Options) (number more : Nat) (inComment : Bool)
    (lines : List Bytes) :
    match outcome options number inComment lines with
    | .ok found => outcome options (number + more) inComment lines = .ok found
    | .error failure => ∃ d p, failure = .reported d ∧ d.position = some p ∧
        outcome options (number + more) inComment lines =
          .error (.reported { d with position := some { p with line := p.line + more } }) := by
  induction lines generalizing number inComment with
  | nil => rfl
  | cons line rest ih =>
    rw [outcome, outcome]
    rcases htokens : Lexeme.readTokens options { ahead := line, inComment }
      with ⟨these, h⟩ | ⟨cause | breach, h⟩
    · have hrest := ih (number + 1) h.inComment
      rw [Nat.add_right_comm] at hrest
      dsimp only
      cases hfound : outcome options (number + 1) h.inComment rest with
      | ok found =>
        rw [hfound] at hrest
        exact congrArg (Except.map _) hrest
      | error failure =>
        rw [hfound] at hrest
        obtain ⟨d, p, rfl, hplace, hmoved⟩ := hrest
        exact ⟨d, p, rfl, hplace, congrArg (Except.map _) hmoved⟩
    · exact ⟨_, _, rfl, rfl, by rw [Nat.add_right_comm]; rfl⟩
    · exact absurd htokens (Lexeme.orderly_readTokens options).not_breach

/-- So it fails of diagnostics with a place, and of nothing else. -/
theorem reported_of_outcome {options : Options} {number : Nat} {inComment : Bool}
    {lines : List Bytes} {failure : Failure Diagnostic}
    (houtcome : outcome options number inComment lines = .error failure) :
    ∃ d p, failure = .reported d ∧ d.position = some p := by
  have hnumber := outcome_number options number 0 inComment lines
  rw [houtcome] at hnumber
  obtain ⟨d, p, hreported, hplace, -⟩ := hnumber
  exact ⟨d, p, hreported, hplace⟩

/-- Whether a run ends as an outcome says. -/
def EndsAs (run : EStateM.Result (Failure Diagnostic) Scanner (List Token)) :
    Except (Failure Diagnostic) (List Token × Bool) → Prop
  | .ok (tokens, isOpen) => ∃ s', run = .ok tokens s' ∧ s'.head.inComment = isOpen
  | .error failure => ∃ s', run = .error failure s'

/-- Tokens that come before all others. -/
theorem EndsAs.prepend (these : List Token)
    {value : Except (Failure Diagnostic) (List Token × Bool)} (hends : EndsAs (scanAll s) value) :
    EndsAs ((do return these ++ (← scanAll) : Scan (List Token)) s)
      (value.map fun more => (these ++ more.1, more.2)) := by
  cases value with
  | error failure =>
    obtain ⟨s', herror⟩ := hends
    exact ⟨s', bind_of_error herror⟩
  | ok found =>
    obtain ⟨s', hok, hopen⟩ := hends
    exact ⟨s', bind_of_ok hok, hopen⟩

/-- **The lines ahead decide a scan**, once nothing but the program is open. -/
theorem scanAll_of_ahead {lines : List Bytes} (hahead : s.Ahead lines)
    (hprogram : s.stack.includes = []) :
    EndsAs (scanAll s) (outcome s.options s.stack.programLine s.head.inComment lines) := by
  induction lines generalizing s with
  | nil =>
    obtain ⟨s', hline⟩ := hahead.getLine_nil
    rw [scanAll_eq, bind_of_ok hline]
    exact ⟨s', rfl, inComment_getLine_of_end hline⟩
  | cons line lines ih =>
    obtain ⟨stack, hline, hbelow⟩ := hahead.getLine_cons
    obtain ⟨hincludes, hnumber⟩ :
        stack.includes = [] ∧ stack.programLine = s.stack.programLine + 1 :=
      stack_getLine_of_program hprogram hline
    have hread := readTokens_of_program
      (s := { s with stack, head := s.head.load line, saved := none }) hincludes
    rw [scanAll_eq, bind_of_ok hline, if_pos rfl, outcome]
    simp only [Head.load] at hread ⊢
    let h₀ : Head := { ahead := line, inComment := s.head.inComment }
    cases htokens : Lexeme.readTokens s.options h₀ with
    | ok these h =>
      rw [htokens] at hread
      have hrest := ih (s := { s with stack, head := h, saved := none }) (hbelow h) hincludes
      rw [← hnumber, bind_of_ok hread]
      exact hrest.prepend these
    | error failure h =>
      rw [htokens] at hread
      rcases failure with cause | breach
      · obtain ⟨s', herror⟩ := hread
        rw [hnumber] at herror
        exact ⟨s', bind_of_error herror⟩
      · exact hread.elim

/-- So the text of a program decides it. -/
theorem scanAll_start (options : Options) (resolver : Resolver) (program : Bytes) :
    EndsAs (scanAll (.start options resolver (.ofBytes program)))
      (outcome options 0 false (Bytes.logicalLines options.maxLine program)) :=
  scanAll_of_ahead (.start options resolver program) rfl

/-- It is scanned to its end, or the scan fails of a diagnostic with a
place. -/
theorem scanAll_start_cases (options : Options) (resolver : Resolver) (program : Bytes) :
    (∃ tokens s, scanAll (.start options resolver (.ofBytes program)) = .ok tokens s ∧
        outcome options 0 false (Bytes.logicalLines options.maxLine program) =
          .ok (tokens, s.head.inComment)) ∨
      ∃ d p s, scanAll (.start options resolver (.ofBytes program)) = .error (.reported d) s ∧
        d.position = some p ∧
        outcome options 0 false (Bytes.logicalLines options.maxLine program) =
          .error (.reported d) := by
  have hends := scanAll_start options resolver program
  cases houtcome : outcome options 0 false (Bytes.logicalLines options.maxLine program) with
  | ok found =>
    rw [houtcome] at hends
    obtain ⟨s, hrun, hopen⟩ := hends
    exact .inl ⟨found.1, s, hrun, by rw [hopen]⟩
  | error failure =>
    obtain ⟨d, p, rfl, hplace⟩ := reported_of_outcome houtcome
    rw [houtcome] at hends
    obtain ⟨s, hrun⟩ := hends
    exact .inr ⟨d, p, s, hrun, hplace, rfl⟩

/-- What is scanned to its end is told by the tokens and by whether a comment
is open there. -/
theorem outcome_of_scanAll {options : Options} {resolver : Resolver} {program : Bytes}
    {tokens : List Token}
    (hscan : scanAll (.start options resolver (.ofBytes program)) = .ok tokens s) :
    outcome options 0 false (Bytes.logicalLines options.maxLine program) =
      .ok (tokens, s.head.inComment) := by
  rcases scanAll_start_cases options resolver program with
    ⟨_, _, hrun, houtcome⟩ | ⟨_, _, _, hrun, -, -⟩ <;> rw [hscan] at hrun <;> cases hrun
  exact houtcome

end Scan

end BasicLexer
