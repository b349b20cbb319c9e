import BasicLexer.Scanner.Lines
import BasicLexer.Scanner.Tokens

/-!
# Scanner — streams of tokens

A client that wants every token need not fetch lines: a stream fetches
one whenever the last has ended, and ends with the token of the end of
the file or with a failure. Include files are not followed.
-/

namespace BasicLexer

/-- How far a stream has come: whether it waits for a line, and whether
it has ended. -/
structure Stream where
  needsLine : Bool := true
  ended : Bool := false
  deriving DecidableEq, Repr

namespace Stream

/-- What a step of a stream gives: a token, the failure it ended of, or
nothing once it has ended. -/
inductive Item where
  | token (token : Token)
  | failure (failure : Failure Diagnostic)
  | none
  deriving DecidableEq, Repr

/-- The next token of the line that is read. -/
def takeToken (s : Scanner) : Item × Stream × Scanner :=
  match Scan.getToken s with
  | .ok token s' => (.token token, { needsLine := token.kind = .endOfLine }, s')
  | .error failure s' => (.failure failure, { ended := true }, s')

/-- One step of a stream. -/
def advance (stream : Stream) (s : Scanner) : Item × Stream × Scanner :=
  if stream.ended then (.none, stream, s)
  else if stream.needsLine then
    match Scan.getLine s with
    | .ok true s' => takeToken s'
    | .ok false s' => (.token { kind := .endOfFile, offset := 0 }, { ended := true }, s')
    | .error failure s' => (.failure failure, { ended := true }, s')
  else takeToken s

/-- What a stream still has before it: bytes of the open files and its
own end, and then what is left of the line. -/
def before (stream : Stream) (s : Scanner) : Nat × Nat :=
  (s.stack.left + (if stream.ended then 0 else 1),
    if stream.needsLine then 0 else s.supply + 1)

theorem before_takeToken {stream stream' : Stream} {s s' : Scanner} {t : Token}
    (hended : stream.ended = false) (hneeds : stream.needsLine = false)
    (hstep : takeToken s = (.token t, stream', s')) :
    Prod.Lex (· < ·) (· < ·) (before stream' s') (before stream s) := by
  unfold takeToken at hstep
  split at hstep
  · rename_i token s₁ hrun
    simp only [Prod.mk.injEq, Item.token.injEq] at hstep
    obtain ⟨rfl, rfl, rfl⟩ := hstep
    have hstack := Scan.stack_getToken hrun
    simp only [before, hstack, hended, hneeds]
    refine Prod.Lex.right _ ?_
    rcases Scan.supply_getToken hrun with hlt | ⟨hkind, -⟩
    · split
      · simp
      · simpa using hlt
    · simp [hkind]
  · simp at hstep

/-- Every token of a stream takes of what it has before it. -/
theorem before_advance {stream stream' : Stream} {s s' : Scanner} {t : Token}
    (hstep : advance stream s = (.token t, stream', s')) :
    Prod.Lex (· < ·) (· < ·) (before stream' s') (before stream s) := by
  unfold advance at hstep
  split at hstep
  · simp at hstep
  rename_i hended
  simp only [Bool.not_eq_true] at hended
  split at hstep
  · split at hstep
    · rename_i s₁ hline
      have hlt := Scan.left_getLine hline
      unfold takeToken at hstep
      split at hstep
      · rename_i token s₂ hrun
        simp only [Prod.mk.injEq, Item.token.injEq] at hstep
        obtain ⟨rfl, rfl, rfl⟩ := hstep
        have hstack := Scan.stack_getToken hrun
        refine Prod.Lex.left _ _ ?_
        simp only [hstack, hended]
        omega
      · simp at hstep
    · rename_i s₁ hline
      have hle := Scan.left_getLine_le hline
      simp only [Prod.mk.injEq, Item.token.injEq] at hstep
      obtain ⟨rfl, rfl, rfl⟩ := hstep
      refine Prod.Lex.left _ _ ?_
      simp only [hended, if_true]
      simp
      omega
    · simp at hstep
  · rename_i hneeds
    exact before_takeToken hended (by simpa using hneeds) hstep

/-- The tokens of a stream to its end, after the tokens given in
reverse, and the failure it ended of if it failed. -/
def drainFrom (tokens : List Token) (stream : Stream) (s : Scanner) :
    (List Token × Option (Failure Diagnostic)) × Scanner :=
  match _hstep : advance stream s with
  | (.token token, stream', s') => drainFrom (token :: tokens) stream' s'
  | (.failure failure, _, s') => ((tokens.reverse, some failure), s')
  | (.none, _, s') => ((tokens.reverse, none), s')
  termination_by before stream s
  decreasing_by exact before_advance _hstep

/-- What draining a stream makes of its next step. -/
theorem drainFrom_eq (tokens : List Token) (stream : Stream) (s : Scanner) :
    drainFrom tokens stream s =
      match advance stream s with
      | (.token token, stream', s') => drainFrom (token :: tokens) stream' s'
      | (.failure failure, _, s') => ((tokens.reverse, some failure), s')
      | (.none, _, s') => ((tokens.reverse, none), s') := by
  rw [drainFrom]
  split <;> rename_i hstep <;> rw [hstep]

/-- The tokens of a new stream. -/
def drain (s : Scanner) : (List Token × Option (Failure Diagnostic)) × Scanner :=
  drainFrom [] {} s

end Stream

namespace Scan

/-- Every token that is left, in order, through the end of the file. -/
def scanAll : Scan (List Token) := fun s =>
  match Stream.drain s with
  | ((tokens, none), s') => .ok tokens s'
  | ((_, some failure), s') => .error failure s'

end Scan

end BasicLexer
