import BasicLexer.Proofs.Client.Breaches
import BasicLexer.Proofs.Client.Registry
import BasicLexer.Proofs.Client.Reports
import BasicLexer.Proofs.Listing.Fetched
import BasicLexer.Proofs.Listing.Termination
import BasicLexer.Proofs.Reading.Display

/-!
# Listings — the turns of the loop

A turn of the loop that makes a listing fetches a line and does what it
says. All that this may come to is said once (`Listing.turn_cases`): the
line leaves its tokens and only the head has moved, or it asks for a file
that is opened now or was included before. What a whole loop comes to
follows turn by turn. Its tokens are shown on one line each
(`Listing.Loop.oneLine`), the files included are those its lines ask for,
in that order (`Listing.Asks.includedFiles`), and if it fails it has
reported that, once and nothing else (`Listing.Loop.accounted`).
-/

namespace BasicLexer

open Scan

namespace Listing

variable {s s₁ s₂ s' : Scanner} {these tokens : List Token}

/-! ## A turn -/

/-- The name of the file that a statement asks for, if it asks for
one. -/
def Statement.request? : Statement → Option String
  | .tokens _ => none
  | .request name => some name

/-- **What a turn can do**: leave the tokens of its line, or have the file
included that its line asks for. -/
theorem turn_cases (hline : getLine s = .ok true s₁) (hstatement : statement s₁ = .ok these s₂) :
    (∃ h, Statement.ofLine s₁.options s₁.head.inComment s₁.head.line =
        .ok (.tokens these, h.inComment) ∧ s₂ = { s₁ with head := h }) ∨
    (∃ name h status, Statement.ofLine s₁.options s₁.head.inComment s₁.head.line =
        .ok (.request name, h.inComment) ∧ these = [] ∧ status ≠ .notFound ∧
        pushInclude name { s₁ with head := h } = .ok status s₂) := by
  obtain ⟨hsaved, hhead⟩ := head_of_getLine hline
  rw [statement_eq] at hstatement
  obtain ⟨found, s₃, hread, hperform⟩ := bind_eq_ok hstatement
  obtain ⟨⟨found, _⟩, hfound, rfl, h, rfl, rfl⟩ :=
    (follows_readStatement hsaved hhead).of_ok hread
  cases found with
  | tokens tokens =>
    cases hperform
    exact .inl ⟨h, hfound, rfl⟩
  | request name =>
    obtain ⟨_, s₄, hgrant, hnone⟩ := bind_eq_ok hperform
    obtain ⟨status, s₅, hpush, hstatus⟩ := bind_eq_ok hgrant
    cases hnone
    cases status with
    | notFound => cases hstatus
    | opened | alreadySatisfied =>
      cases hstatus
      exact .inr ⟨name, h, _, hfound, rfl, by rintro ⟨⟩, hpush⟩

/-! ## The tokens of a loop -/

/-- **Every token that a loop leaves is shown on one line.** -/
theorem Loop.oneLine {lines : Nat}
    {result : EStateM.Result (Failure Diagnostic) Scanner (List Token)} {all : List Token}
    (hloop : Loop tokens s lines result) (hbefore : ∀ t ∈ tokens, t.OneLine)
    (hresult : result = .ok all s') : ∀ t ∈ all, t.OneLine := by
  induction hloop with
  | unreadable | rejected => cases hresult
  | exhausted hline =>
    cases hresult
    intro t ht
    rcases List.mem_cons.mp (List.mem_reverse.mp ht) with rfl | ht
    · exact Token.oneLine_of_not_verbatim rfl
    · exact hbefore t ht
  | line hline hstatement hrest ih =>
    refine ih (fun t ht => ?_) hresult
    rw [List.mem_reverseAux] at ht
    rcases ht with hthese | ht
    · rcases turn_cases hline hstatement with ⟨h, hfound, -⟩ | ⟨-, -, -, -, rfl, -, -⟩
      · exact Statement.oneLine_ofLine hfound t hthese
      · cases hthese
    · exact hbefore t ht

end Listing

/-! ## The files that a loop asks for -/

/-- Every name that is included is that of a file. -/
def Scanner.IncludesFiles (s : Scanner) : Prop :=
  ∀ name, s.included.contains name = true → (s.resolver.open? name).isSome

namespace Scan

variable {s s' : Scanner}

theorem included_getLine {found : Bool} (hline : getLine s = .ok found s') :
    s'.included = s.included := by
  have hkept := (Operation.keeps_getLine s).included
  rwa [after_of_ok hline] at hkept

/-- A request enters its name, if it is not entered. -/
theorem included_pushInclude {name : String} {status : IncludeStatus}
    (hpush : pushInclude name s = .ok status s') : s'.included = (s.included.insert name).2 := by
  rcases pushInclude_cases hpush with ⟨hold, -, rfl⟩ | ⟨-, -, -, rfl⟩ | ⟨source, -, -, -, rfl⟩
  · obtain ⟨i, hi⟩ := OrderedSet.insert_of_contains hold
    rw [hi]
  · rfl
  · rfl

/-- A request that finds its file, now or before, includes nothing else. -/
theorem includesFiles_pushInclude {name : String} {status : IncludeStatus}
    (hpush : pushInclude name s = .ok status s') (hstatus : status ≠ .notFound)
    (hs : s.IncludesFiles) :
    (s.resolver.open? name).isSome ∧ s'.resolver = s.resolver ∧ s'.IncludesFiles := by
  rcases pushInclude_cases hpush with
    ⟨hold, -, rfl⟩ | ⟨-, -, hnone, -⟩ | ⟨source, -, hopen, -, rfl⟩
  · exact ⟨hs name hold, rfl, hs⟩
  · exact absurd hnone hstatus
  · have hfile : (s.resolver.open? name).isSome := Option.isSome_of_eq_some hopen
    refine ⟨hfile, rfl, fun other hother => ?_⟩
    rcases OrderedSet.contains_insert.mp hother with rfl | hbefore
    · exact hfile
    · exact hs other hbefore

end Scan

namespace Listing

variable {s s' : Scanner} {tokens : List Token}

/-- The names that the lines of a loop ask for, in order, from a state to
that in which there is no line any more. -/
inductive Asks : Scanner → List String → Scanner → Prop
  | exhausted {s s' : Scanner} (hline : getLine s = .ok false s') : Asks s [] s'
  | line {s s₁ s₂ s' : Scanner} {found : Statement} {isOpen : Bool} {these : List Token}
      {names : List String} (hline : getLine s = .ok true s₁)
      (hfound : Statement.ofLine s₁.options s₁.head.inComment s₁.head.line = .ok (found, isOpen))
      (hstatement : statement s₁ = .ok these s₂) (hrest : Asks s₂ names s') :
      Asks s (found.request?.toList ++ names) s'

theorem Loop.exists_asks {lines : Nat}
    {result : EStateM.Result (Failure Diagnostic) Scanner (List Token)} {all : List Token}
    (hloop : Loop tokens s lines result) (hresult : result = .ok all s') :
    ∃ names, Asks s names s' := by
  induction hloop with
  | unreadable | rejected => cases hresult
  | exhausted hline =>
    cases hresult
    exact ⟨[], .exhausted hline⟩
  | line hline hstatement hrest ih =>
    obtain ⟨names, hasks⟩ := ih hresult
    rcases turn_cases hline hstatement with ⟨h, hfound, -⟩ | ⟨name, h, -, hfound, -⟩ <;>
      exact ⟨_, .line hline hfound hstatement hasks⟩

/-- The names asked for are entered one after another. -/
theorem Asks.included {names : List String} (hasks : Asks s names s') :
    s'.included = s.included.insertAll names := by
  induction hasks with
  | exhausted hline => exact included_getLine hline
  | line hline hfound hstatement hrest ih =>
    rw [ih, ← included_getLine hline]
    rcases turn_cases hline hstatement with
      ⟨h, hthis, rfl⟩ | ⟨name, h, status, hthis, -, -, hpush⟩ <;> cases hfound.symm.trans hthis
    · rfl
    · rw [included_pushInclude hpush]
      rfl

/-- **The files included** are those asked for, each where it was first
asked for. -/
theorem Asks.includedFiles {names : List String} (hasks : Asks s names s')
    (hnone : s.included = .empty) : s'.includedFiles = names.eraseDups := by
  rw [Scanner.includedFiles, hasks.included, hnone]
  exact OrderedSet.toList_insertAll_empty names

/-- And each is the name of a file. -/
theorem Asks.isSome_open? {names : List String} (hasks : Asks s names s')
    (hs : s.IncludesFiles) : ∀ name ∈ names, (s.resolver.open? name).isSome := by
  induction hasks with
  | exhausted hline => exact List.forall_mem_nil _
  | @line s s₁ s₂ s' found isOpen these names hline hfound hstatement hrest ih =>
    have hresolver : s₁.resolver = s.resolver := (linesAhead_getLine [] hline).2.1
    have hs₁ : s₁.IncludesFiles := by
      rw [Scanner.IncludesFiles, included_getLine hline, hresolver]
      exact hs
    rw [← hresolver]
    rcases turn_cases hline hstatement with
      ⟨h, hthis, rfl⟩ | ⟨name, h, status, hthis, -, hstatus, hpush⟩ <;>
      cases hfound.symm.trans hthis
    · exact ih hs₁
    · obtain ⟨hopens, hkept, hs₂⟩ := includesFiles_pushInclude hpush hstatus hs₁
      have hrest := ih hs₂
      rw [hkept] at hrest
      exact List.forall_mem_cons.mpr ⟨hopens, hrest⟩

end Listing

/-! ## What a loop fails of -/

namespace Scan

open Scanner

variable {α β : Type} {s s₁ : Scanner}

/-- A run that accounts for its failure: it ends in a value and has
reported nothing, or in a diagnostic and has reported that alone. -/
def Accounted (s : Scanner) : EStateM.Result (Failure Diagnostic) Scanner α → Prop
  | .ok _ s' => Reported [] s s'
  | .error (.reported diagnostic) s' => Reported [diagnostic] s s'
  | .error (.breach _) _ => False

/-- What came before such a run reported nothing. -/
theorem Accounted.after_quiet {result : EStateM.Result (Failure Diagnostic) Scanner α}
    (hfirst : Reported [] s s₁) (hthen : Accounted s₁ result) : Accounted s result := by
  rcases result with ⟨a, s'⟩ | ⟨⟨diagnostic⟩ | ⟨broken⟩, s'⟩
  · exact hfirst.after_quiet hthen
  · exact hfirst.after_quiet hthen
  · exact hthen

/-- A computation that accounts for its failure, wherever it starts. -/
def Accounts (x : Scan α) : Prop := ∀ s, Accounted s (x s)

namespace Accounts

/-- So does what reports its failure once and breaks no contract. -/
theorem of {x : Scan α} (honce : x.ReportsOnce) (hkept : x.BreaksNothing) : Accounts x := by
  intro s
  have hreported := honce s
  rcases hrun : x s with ⟨a, s'⟩ | ⟨⟨diagnostic⟩ | ⟨broken⟩, s'⟩
  · rw [hrun, after_of_ok hrun] at hreported
    exact hreported
  · rw [hrun, after_of_error hrun] at hreported
    exact hreported
  · exact hkept _ _ _ hrun

theorem of_ok {x : Scan α} {a : α} (hx : x.Accounts) (hrun : x s = .ok a s₁) :
    Reported [] s s₁ := by
  have hthis := hx s
  rwa [hrun] at hthis

/-- A failure is accounted for whatever it keeps from being computed. -/
theorem of_error {x : Scan α} {failure : Failure Diagnostic} (hx : x.Accounts)
    (hrun : x s = .error failure s₁) :
    Accounted s (.error failure s₁ : EStateM.Result _ _ β) := by
  have hthis := hx s
  rw [hrun] at hthis
  cases failure <;> exact hthis

theorem pure (a : α) : Accounts (Pure.pure a : Scan α) := of (.pure a) (.pure a)

theorem bind {x : Scan α} {f : α → Scan β} (hx : x.Accounts) (hf : ∀ a, (f a).Accounts) :
    (x >>= f).Accounts := by
  intro s
  cases hrun : x s with
  | ok a s₁ =>
    rw [bind_of_ok hrun]
    exact (hf a s₁).after_quiet (hx.of_ok hrun)
  | error failure s₁ =>
    rw [bind_of_error hrun]
    exact hx.of_error hrun

end Accounts

theorem accounts_getLine : Accounts getLine := .of reportsOnce_getLine breaksNothing_getLine

theorem accounts_getToken : Accounts getToken := .of reportsOnce_getToken breaksNothing_getToken

theorem accounts_fetchAndRequire (kind : Kind) : Accounts (fetchAndRequire kind) :=
  .of (reportsOnce_fetchAndRequire kind) (breaksNothing_fetchAndRequire kind)

end Scan

namespace Listing

variable {s : Scanner} {tokens : List Token}

theorem accounts_lineFrom (tokens : List Token) (t : Token) : Accounts (lineFrom tokens t) := by
  intro s
  fun_induction lineFrom tokens t s with
  | case1 tokens t s hend => exact .quiet rfl
  | case2 tokens t s hend next s₁ hget ih => exact ih.after_quiet (accounts_getToken.of_ok hget)
  | case3 tokens t s hend failure s₁ hget => exact accounts_getToken.of_error hget

theorem accounts_statement : Accounts statement := by
  have hpush (name : String) : Accounts (pushInclude name) :=
    .of (reportsOnce_pushInclude name) (breaksNothing_pushInclude name)
  have hopen : Accounts openInclude := by
    refine (accounts_fetchAndRequire .string).bind fun name =>
      (accounts_fetchAndRequire .endOfLine).bind fun _ => (hpush name.text).bind fun status => ?_
    cases status with
    | notFound => exact .of (reportsOnce_fail _) (.fail _)
    | opened | alreadySatisfied => exact .pure ()
  have hend : Accounts endOfText := fun _ => .quiet rfl
  refine accounts_getToken.bind fun first => ?_
  split
  · exact hopen.bind fun _ => .pure []
  split
  · exact hend.bind fun last => .pure [first, last]
  · exact accounts_lineFrom [] first

/-- **A loop accounts for its failure**, on whatever line it comes to. -/
theorem Loop.accounted {lines : Nat}
    {result : EStateM.Result (Failure Diagnostic) Scanner (List Token)}
    (hloop : Loop tokens s lines result) : Accounted s result := by
  induction hloop with
  | unreadable hline => exact accounts_getLine.of_error hline
  | exhausted hline => exact accounts_getLine.of_ok hline
  | rejected hline hstatement =>
    exact (accounts_statement.of_error hstatement).after_quiet (accounts_getLine.of_ok hline)
  | line hline hstatement hrest ih =>
    exact (ih.after_quiet (accounts_statement.of_ok hstatement)).after_quiet
      (accounts_getLine.of_ok hline)

end Listing

end BasicLexer
