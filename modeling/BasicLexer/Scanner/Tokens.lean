import BasicLexer.Lexeme
import BasicLexer.Scanner.State

/-!
# Scanner — tokens

Tokens come off the line, or out of the one place where a client can
save a token for later. A token that is not of the kind required is an
error at the token's own column.
-/

namespace BasicLexer

namespace Scan

/-- Scan the next token of the line. -/
def nextToken : Scan Token := fun s => reading (Lexeme.read s.options) s

/-- The next token: the saved one if there is one, else one off the
line. -/
def getToken : Scan Token := fun s =>
  match s.saved with
  | some token => .ok token { s with saved := none }
  | none => nextToken s

/-- Save a token for later. There is room for one. -/
def saveToken (token : Token) : Scan Unit := fun s =>
  match s.saved with
  | some _ => .error (.breach .secondSave) s
  | none => .ok () { s with saved := some token }

/-- Let a token of the required kind through. -/
def requireToken (token : Token) (required : Kind) : Scan Token := fun s =>
  if token.kind = required then .ok token s
  else
    fail (.expectingToken required token.kind)
      { s with head := { s.head with tokenStart := token.offset } }

/-- The next token, which is to be of the required kind. -/
def fetchAndRequire (required : Kind) : Scan Token := do
  requireToken (← getToken) required

end Scan

namespace Scanner

/-- What tokens can still come of without another line: the bytes ahead
and the saved token. -/
def supply (s : Scanner) : Nat := s.head.ahead.length + s.saved.toList.length

end Scanner

namespace Scan

section Taken

variable {s : Scanner} {t : Token}

/-- A saved token is the next one, and is saved no more. -/
theorem getToken_of_saved (hsaved : s.saved = some t) :
    getToken s = .ok t { s with saved := none } := by
  simp only [getToken, hsaved]

/-- Where none is saved, the next token is off the line. -/
theorem getToken_of_unsaved (hsaved : s.saved = none) :
    getToken s = reading (Lexeme.read s.options) s := by
  simp only [getToken, hsaved, nextToken]

theorem getToken_of_read (hsaved : s.saved = none) {h : Head}
    (hread : Lexeme.read s.options s.head = .ok t h) : getToken s = .ok t { s with head := h } := by
  simp only [getToken_of_unsaved hsaved, reading, hread]

theorem getToken_of_refused (hsaved : s.saved = none) {h : Head} {cause : Cause}
    (hread : Lexeme.read s.options s.head = .error (.reported cause) h) :
    getToken s = fail cause { s with head := h } := by
  simp only [getToken_of_unsaved hsaved, reading, hread]

end Taken

/-- A token is the saved one, or it is off the line. -/
theorem getToken_eq_ok {s s' : Scanner} {t : Token} (hrun : getToken s = .ok t s') :
    s.saved = some t ∧ s' = { s with saved := none } ∨
      s.saved = none ∧ ∃ head,
        Lexeme.read s.options s.head = .ok t head ∧ s' = { s with head } := by
  unfold getToken at hrun
  split at hrun <;> rename_i hsaved
  · cases hrun
    exact .inl ⟨hsaved, rfl⟩
  · exact .inr ⟨hsaved, reading_eq_ok hrun⟩

/-- A token that fails is off the line. -/
theorem getToken_eq_reported {s s' : Scanner} {d : Diagnostic}
    (hrun : getToken s = .error (.reported d) s') :
    ∃ cause head, Lexeme.read s.options s.head = .error (.reported cause) head ∧
      d = .ofCause cause (some (Scanner.position { s with head })) := by
  unfold getToken at hrun
  split at hrun
  · cases hrun
  · exact reading_eq_reported hrun

/-- Taking a token leaves the open files as they are. -/
theorem stack_getToken {s s' : Scanner} {t : Token} (hrun : getToken s = .ok t s') :
    s'.stack = s.stack := by
  rcases getToken_eq_ok hrun with ⟨-, rfl⟩ | ⟨-, head, -, rfl⟩ <;> rfl

/-- A token is that of the end of the line or takes of the supply. -/
theorem supply_getToken {s s' : Scanner} {t : Token} (hrun : getToken s = .ok t s') :
    s'.supply < s.supply ∨ t.kind = .endOfLine ∧ s'.supply ≤ s.supply := by
  rcases getToken_eq_ok hrun with ⟨hsaved, rfl⟩ | ⟨hsaved, head, hread, rfl⟩
  · exact .inl (by simp [Scanner.supply, hsaved])
  · have := Lexeme.length_ahead_read hread
    simpa [Scanner.supply, hsaved] using this

end Scan

end BasicLexer
