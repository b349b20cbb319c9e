/-!
# Failures and breaches

An operation of the scanner ends in a value, in a failure it reports, or
in a breach: the client used it against its contract. A breach reports
nothing and is the client's to mend.
-/

namespace BasicLexer

/-- A contract broken by a client. -/
inductive Breach where
  /-- A byte was pushed back right after another. -/
  | secondPushBack
  /-- A token was saved while another was. -/
  | secondSave
  deriving DecidableEq, Repr

namespace Breach

/-- The text of a breach. -/
def message : Breach → String
  | secondPushBack => "character pushback is limited to one level"
  | secondSave => "save_token called with a token already pending"

end Breach

/-- How an operation ends that gives no value. -/
inductive Failure (ε : Type) where
  | reported (error : ε)
  | breach (breach : Breach)
  deriving DecidableEq, Repr

/-! ## Sequencing -/

section Sequencing

variable {ε σ α β : Type} {x : EStateM ε σ α} {f : α → EStateM ε σ β} {s s' : σ}

theorem bind_of_ok {a : α} (hrun : x s = .ok a s') : (x >>= f) s = f a s' := by
  simp only [Bind.bind, EStateM.bind, hrun]

theorem bind_of_error {error : ε} (hrun : x s = .error error s') :
    (x >>= f) s = .error error s' := by
  simp only [Bind.bind, EStateM.bind, hrun]

/-- A value comes of a first value and what comes after it. -/
theorem bind_eq_ok {b : β} {s'' : σ} (hrun : (x >>= f) s = .ok b s'') :
    ∃ a s', x s = .ok a s' ∧ f a s' = .ok b s'' := by
  cases hfirst : x s with
  | ok a s' =>
    rw [bind_of_ok hfirst] at hrun
    exact ⟨a, s', rfl, hrun⟩
  | error error s' =>
    rw [bind_of_error hfirst] at hrun
    cases hrun

/-- What comes after a computation goes by its run. -/
theorem bind_of_eq {y : EStateM ε σ α} (hrun : x s = y s) : (x >>= f) s = (y >>= f) s := by
  simp only [Bind.bind, EStateM.bind, hrun]

/-- So it does where there is no state. -/
theorem except_bind_eq_ok {y : Except ε α} {g : α → Except ε β} {b : β}
    (hrun : (y >>= g) = .ok b) : ∃ a, y = .ok a ∧ g a = .ok b := by
  cases y with
  | ok a => exact ⟨a, rfl, hrun⟩
  | error error => cases hrun

end Sequencing

end BasicLexer
