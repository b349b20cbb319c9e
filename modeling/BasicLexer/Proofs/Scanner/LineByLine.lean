import BasicLexer.Proofs.Listing.Expansion
import BasicLexer.Proofs.Reading.FullLine
import BasicLexer.Scanner.Stream

/-!
# Scanner — a stream goes line by line

A stream is drained a token at a time, and keeps in two flags whether it
waits for a line or has ended. Drained, it comes to a plain recursion on
lines: fetch one, read it to its end, go on (`Scan.scanAll_eq`).
-/

namespace BasicLexer

namespace Scan

/-! ## The tokens of a line -/

/-- The tokens of the line from the head on, through that of its end. -/
def readTokens : Scan (List Token) := fun s => reading (Lexeme.readTokens s.options) s

variable {s s' s₁ : Scanner}

/-- Token by token it is read without a saved token. -/
theorem readTokens_eq (hsaved : s.saved = none) :
    readTokens s = (do
      let t ← getToken
      if t.kind = .endOfLine then return [t]
      else return t :: (← readTokens) : Scan (List Token)) s := by
  have hget := getToken_of_unsaved hsaved
  simp only [reading] at hget
  simp only [readTokens, reading]
  cases hread : Lexeme.read s.options s.head with
  | error failure h =>
    rw [hread] at hget
    rw [Lexeme.readTokens_of_error hread]
    cases failure <;> exact (bind_of_error hget).symm
  | ok t h =>
    rw [hread] at hget
    rw [bind_of_ok hget]
    by_cases hend : t.kind = .endOfLine
    · rw [Lexeme.readTokens_of_end hread hend, if_pos hend]
      rfl
    · rw [Lexeme.readTokens_of_more hread hend, if_neg hend]
      simp only [Bind.bind, EStateM.bind, readTokens, reading]
      rcases Lexeme.readTokens s.options h with ⟨rest, h'⟩ | ⟨_ | _, h'⟩ <;> rfl

/-- Where a line is read to its end, nothing moves but the head. -/
theorem readTokens_eq_ok {tokens : List Token} (hread : readTokens s = .ok tokens s') :
    ∃ h, Lexeme.readTokens s.options s.head = .ok tokens h ∧ s' = { s with head := h } :=
  reading_eq_ok hread

/-- No token is saved by taking one off the line. -/
theorem saved_getToken {t : Token} (hget : getToken s = .ok t s') : s'.saved = none := by
  rcases getToken_eq_ok hget with ⟨-, rfl⟩ | ⟨hsaved, head, -, rfl⟩
  · rfl
  · exact hsaved

/-- With a line comes no saved token. -/
theorem saved_of_getLine (hline : getLine s = .ok true s₁) : s₁.saved = none := by
  obtain ⟨_, _, _, -, rfl⟩ := fetch_of_getLine hline
  rfl

end Scan

namespace Stream

open Scan

variable {s s' s₁ : Scanner} {stream : Stream}

/-! ## Draining as a computation -/

/-- The tokens of a stream to its end, after those given in reverse, or
the failure it ends of. -/
def rest (tokens : List Token) (stream : Stream) : Scan (List Token) := fun s =>
  match drainFrom tokens stream s with
  | ((tokens, none), s') => .ok tokens s'
  | ((_, some failure), s') => .error failure s'

/-- Tokens that come before all others are no matter to a stream. -/
theorem drainFrom_append (tokens before : List Token) (stream : Stream) (s : Scanner) :
    drainFrom (tokens ++ before) stream s =
      ((before.reverse ++ (drainFrom tokens stream s).1.1, (drainFrom tokens stream s).1.2),
        (drainFrom tokens stream s).2) := by
  fun_induction drainFrom tokens stream s with
  | case1 tokens stream s t stream' s' hstep ih =>
    rw [drainFrom_eq, hstep]
    exact ih
  | case2 tokens stream s failure stream' s' hstep
  | case3 tokens stream s stream' s' hstep =>
    rw [drainFrom_eq, hstep, List.reverse_append]

theorem rest_eq_scanAll (tokens : List Token) :
    rest tokens {} = (do return tokens.reverse ++ (← scanAll)) := by
  funext s
  have happend := drainFrom_append [] tokens {} s
  rw [List.nil_append] at happend
  simp only [rest, scanAll, drain, Bind.bind, EStateM.bind, happend]
  rcases drainFrom [] {} s with ⟨⟨_, _ | _⟩, _⟩ <;> rfl

/-- A stream that takes the next token of a line goes on behind it. -/
theorem rest_of_token (tokens : List Token) (hstep : advance stream s = takeToken s₁) :
    rest tokens stream s = (do
      let t ← getToken
      rest (t :: tokens) { needsLine := t.kind = .endOfLine } : Scan (List Token)) s₁ := by
  rw [rest, drainFrom_eq, hstep, takeToken]
  cases hget : getToken s₁ with
  | ok t s' =>
    rw [bind_of_ok hget]
    rfl
  | error failure s' =>
    rw [bind_of_error hget]

/-- **The tokens of a line** are taken one after another, and then the
stream waits for another line. -/
theorem rest_of_line (tokens : List Token) (hstep : advance stream s = takeToken s₁)
    (hsaved : s₁.saved = none) :
    rest tokens stream s =
      (readTokens >>= fun these => rest (these.reverseAux tokens) {}) s₁ := by
  -- the induction is on what tokens can still come of: every token but the last takes of it
  induction hsupply : s₁.supply using Nat.strongRecOn generalizing s s₁ stream tokens with
  | ind supply ih =>
    subst hsupply
    rw [rest_of_token tokens hstep, bind_of_eq (readTokens_eq hsaved), bind_assoc]
    cases hget : getToken s₁ with
    | error failure s' => rw [bind_of_error hget, bind_of_error hget]
    | ok t s' =>
      rw [bind_of_ok hget, bind_of_ok hget]
      by_cases hend : t.kind = .endOfLine
      · simp only [hend, decide_true, if_true, pure_bind]
        rfl
      · have hless := (supply_getToken hget).resolve_right fun hlast => hend hlast.1
        have hgo : advance { needsLine := false } s' = takeToken s' := rfl
        have hmore := ih _ hless (t :: tokens) hgo (saved_getToken hget) rfl
        simp only [hend, decide_false, if_false, bind_assoc, pure_bind]
        exact hmore

/-- **A stream that waits for a line** fetches one, takes its tokens and
waits again; where there is none it ends. -/
theorem rest_eq (tokens : List Token) (s : Scanner) :
    rest tokens {} s = (do
      if ← getLine then
        let these ← readTokens
        rest (these.reverseAux tokens) {}
      else return (Listing.endToken :: tokens).reverse) s := by
  cases hline : getLine s with
  | error failure s' =>
    rw [bind_of_error hline, rest, drainFrom_eq, advance]
    simp only [hline]
    rfl
  | ok found s₁ =>
    rw [bind_of_ok hline]
    cases found with
    | true =>
      have hstep : advance {} s = takeToken s₁ := by
        rw [advance]
        simp only [hline]
        rfl
      exact rest_of_line tokens hstep (saved_of_getLine hline)
    | false =>
      have hstep : advance {} s = (.token Listing.endToken, { ended := true }, s₁) := by
        rw [advance]
        simp only [hline]
        rfl
      have hlast : advance { ended := true } s₁ = (.none, { ended := true }, s₁) := rfl
      rw [rest, drainFrom_eq, hstep]
      dsimp only
      rw [drainFrom_eq, hlast]
      rfl

end Stream

namespace Scan

/-- **All tokens of a program, line by line**: those of the next line and
then all others, or where no line is left that of the end of the file. -/
theorem scanAll_eq (s : Scanner) :
    scanAll s = (do
      if ← getLine then
        let these ← readTokens
        return these ++ (← scanAll)
      else return [Listing.endToken]) s := by
  have hrest : scanAll s = Stream.rest [] {} s := rfl
  simp only [hrest, Stream.rest_eq, Stream.rest_eq_scanAll, List.reverseAux_eq, List.append_nil,
    List.reverse_reverse]
  rfl

end Scan

end BasicLexer
