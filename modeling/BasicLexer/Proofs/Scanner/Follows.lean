import BasicLexer.Proofs.Listing.Expansion
import BasicLexer.Scanner.Pass

/-!
# Scanner — runs that follow a value

A computation of a scanner follows a value computed without one if it
gives what the value holds, or fails of the cause that the value is. The
relation goes through sequencing (`Scan.Follows.bind`), so a scan and a
definition written in the same steps are compared step by step. So are two
runs that have the same outcome (`Scan.SameOutcome`).
-/

namespace BasicLexer

namespace Scan

variable {α β γ δ : Type} {Good : α → Scanner → β → Prop} {s : Scanner}

/-- Whether a run ends as a value says: in a result that is good for
the value, or in a report of the value's cause, from wherever. -/
def Follows (Good : α → Scanner → β → Prop)
    (run : EStateM.Result (Failure Diagnostic) Scanner α) : Except Cause β → Prop
  | .ok b => ∃ a s', run = .ok a s' ∧ Good a s' b
  | .error cause => ∃ position s', run = .error (.reported (.ofCause cause position)) s'

/-- A scan that fails where it is follows the cause. -/
theorem follows_fail (Good : α → Scanner → β → Prop) (cause : Cause) (s : Scanner) :
    Follows Good (fail cause s) (.error cause) :=
  ⟨some s.position, _, rfl⟩

/-- A run that follows a value follows what a function makes of it. -/
theorem Follows.map {Good' : α → Scanner → γ → Prop} {f : β → γ}
    {run : EStateM.Result (Failure Diagnostic) Scanner α} {value : Except Cause β}
    (hrun : Follows Good run value) (hgood : ∀ a s b, Good a s b → Good' a s (f b)) :
    Follows Good' run (value.map f) := by
  cases value with
  | ok b =>
    obtain ⟨a, s', hok, hab⟩ := hrun
    exact ⟨a, s', hok, hgood a s' b hab⟩
  | error cause => exact hrun

theorem Follows.bind_error {Good' : γ → Scanner → δ → Prop} {x : Scan α} {f : α → Scan γ}
    {cause : Cause} (hx : Follows Good (x s) (.error cause)) :
    Follows Good' ((x >>= f) s) (.error cause) := by
  obtain ⟨position, s', herror⟩ := hx
  exact ⟨position, s', bind_of_error herror⟩

/-- **Sequencing follows sequencing**: what the first run may go on with
decides how the second goes. -/
theorem Follows.bind {Good' : γ → Scanner → δ → Prop} {x : Scan α} {f : α → Scan γ}
    {value : Except Cause β} {next : β → Except Cause δ} (hx : Follows Good (x s) value)
    (hf : ∀ a s' b, value = .ok b → Good a s' b → Follows Good' (f a s') (next b)) :
    Follows Good' ((x >>= f) s) (value >>= next) := by
  cases value with
  | ok b =>
    obtain ⟨a, s', hok, hab⟩ := hx
    rw [bind_of_ok hok]
    exact hf a s' b rfl hab
  | error cause => exact hx.bind_error

/-- Where a run that follows a value gives a result, the value holds
something that the result is good for. -/
theorem Follows.of_ok {run : EStateM.Result (Failure Diagnostic) Scanner α} {value : Except Cause β}
    {a : α} (hrun : Follows Good run value) (hok : run = .ok a s) :
    ∃ b, value = .ok b ∧ Good a s b := by
  subst hok
  cases value with
  | ok b =>
    obtain ⟨_, _, hresult, hgood⟩ := hrun
    cases hresult
    exact ⟨b, rfl, hgood⟩
  | error cause =>
    obtain ⟨_, _, hresult⟩ := hrun
    cases hresult

/-- A run that follows a value gives what the value holds, if it holds
anything. -/
theorem Follows.of_toOption {run : EStateM.Result (Failure Diagnostic) Scanner α}
    {value : Except Cause α} {a : α} (hrun : Follows (fun a _ b => a = b) run value)
    (hvalue : value.toOption = some a) : ∃ s, run = .ok a s := by
  cases value with
  | ok b =>
    cases hvalue
    obtain ⟨_, s, hok, rfl⟩ := hrun
    exact ⟨s, hok⟩
  | error cause => cases hvalue

/-- Closing the include files of a failed run keeps what it follows. -/
theorem Follows.closing {x : Scan α} {value : Except Cause β} (hx : Follows Good (x s) value) :
    Follows Good (Scan.closing x s) value := by
  cases value with
  | ok b =>
    obtain ⟨a, s', hok, hab⟩ := hx
    exact ⟨a, s', by rw [Scan.closing, hok], hab⟩
  | error cause =>
    obtain ⟨position, s', herror⟩ := hx
    exact ⟨position, s'.closeAll, by rw [Scan.closing, herror]⟩

/-! ## Two runs -/

/-- Two runs have the same outcome if both give one value, in states that
are good for it, or both fail of one cause, from wherever. -/
inductive SameOutcome (Good : α → Scanner → Scanner → Prop) :
    EStateM.Result (Failure Diagnostic) Scanner α →
      EStateM.Result (Failure Diagnostic) Scanner α → Prop
  | ok (a : α) {s s' : Scanner} (hgood : Good a s s') : SameOutcome Good (.ok a s) (.ok a s')
  | error (cause : Cause) (position position' : Option Position) (s s' : Scanner) :
      SameOutcome Good (.error (.reported (.ofCause cause position)) s)
        (.error (.reported (.ofCause cause position')) s')

section SameOutcome

variable {Both : α → Scanner → Scanner → Prop} {Both' : γ → Scanner → Scanner → Prop}
variable {s' : Scanner}
variable {run run' : EStateM.Result (Failure Diagnostic) Scanner α}

/-- Runs that follow one value have the same outcome. -/
theorem SameOutcome.of_follows {Good' : α → Scanner → β → Prop} {value : Except Cause β}
    (hrun : Follows Good run value) (hrun' : Follows Good' run' value)
    (hboth : ∀ a s a' s' b, Good a s b → Good' a' s' b → a' = a ∧ Both a s s') :
    SameOutcome Both run run' := by
  cases value with
  | ok b =>
    obtain ⟨a, s, rfl, hab⟩ := hrun
    obtain ⟨a', s', rfl, hab'⟩ := hrun'
    obtain ⟨rfl, hstates⟩ := hboth a s a' s' b hab hab'
    exact .ok _ hstates
  | error cause =>
    obtain ⟨position, s, rfl⟩ := hrun
    obtain ⟨position', s', rfl⟩ := hrun'
    exact .error cause position position' s s'

/-- The states of runs that give a value are good for it. -/
theorem SameOutcome.of_ok {a : α} (hsame : SameOutcome Both run run') (hrun : run = .ok a s)
    (hrun' : run' = .ok a s') : Both a s s' := by
  subst hrun hrun'
  cases hsame with
  | ok a hgood => exact hgood

theorem SameOutcome.bind {x x' : Scan α} {f f' : α → Scan γ}
    (hx : SameOutcome Both (x s) (x' s'))
    (hf : ∀ a s₁ s₁', x s = .ok a s₁ → x' s' = .ok a s₁' → Both a s₁ s₁' →
      SameOutcome Both' (f a s₁) (f' a s₁')) :
    SameOutcome Both' ((x >>= f) s) ((x' >>= f') s') := by
  generalize hrun : x s = run at hx
  generalize hrun' : x' s' = run' at hx
  cases hx with
  | ok a hgood =>
    rw [bind_of_ok hrun, bind_of_ok hrun']
    exact hf a _ _ hrun hrun' hgood
  | error cause position position' =>
    rw [bind_of_error hrun, bind_of_error hrun']
    exact .error cause position position' _ _

/-- Closing the include files of failed runs keeps their outcome. -/
theorem SameOutcome.closing {x x' : Scan α} (hx : SameOutcome Both (x s) (x' s')) :
    SameOutcome Both (Scan.closing x s) (Scan.closing x' s') := by
  rw [Scan.closing, Scan.closing]
  generalize x s = run at hx
  generalize x' s' = run' at hx
  cases hx with
  | ok a hgood => exact .ok a hgood
  | error cause position position' s s' => exact .error cause position position' _ _

/-- What fails where it is has the same outcome anywhere. -/
theorem sameOutcome_fail (Both : α → Scanner → Scanner → Prop) (cause : Cause) (s s' : Scanner) :
    SameOutcome Both ((fail cause : Scan α) s) ((fail cause : Scan α) s') :=
  .error cause (some s.position) (some s'.position) _ _

end SameOutcome

/-! ## Tokens -/

/-- What a computation on the line may change of a scanner: its head. The
value says what it gives and where the head is left. -/
def Scanned (s : Scanner) (a : α) (s' : Scanner) (found : α × Head) : Prop :=
  found.1 = a ∧ s' = { s with head := found.2 }

/-- Scanning a token off the line moves nothing but the head. -/
theorem follows_nextToken (s : Scanner) :
    Follows (Scanned s) (nextToken s) (Lexeme.token s.options s.head) := by
  simp only [nextToken, reading]
  rcases Lexeme.token_cases s.options s.head with
    ⟨t, h, hread, htoken⟩ | ⟨cause, h, hread, htoken⟩
  · rw [hread, htoken]
    exact ⟨t, _, rfl, rfl, rfl⟩
  · rw [hread, htoken]
    exact follows_fail _ _ _

/-- Without a saved token, the next one is off the line. -/
theorem follows_getToken (hsaved : s.saved = none) :
    Follows (Scanned s) (getToken s) (Lexeme.token s.options s.head) := by
  have hget : getToken s = nextToken s := by simp only [getToken, hsaved]
  rw [hget]
  exact follows_nextToken s

/-- So is a token that is to be of a certain kind. -/
theorem follows_fetchAndRequire (hsaved : s.saved = none) (required : Kind) :
    Follows (Scanned s) (fetchAndRequire required s)
      (Lexeme.tokenOf s.options required s.head) := by
  refine (follows_getToken hsaved).bind ?_
  rintro _ _ ⟨t, h⟩ - ⟨rfl, rfl⟩
  unfold requireToken
  by_cases hkind : t.kind = required
  · rw [if_pos hkind, if_pos hkind]
    exact ⟨t, _, rfl, rfl, rfl⟩
  · rw [if_neg hkind, if_neg hkind]
    exact follows_fail _ _ _

end Scan

end BasicLexer
