import BasicLexer.Proofs.Reading.Orderly

/-!
# Reading — a line through its last token

A line is read token by token until that of its end, or until one fails:
`Lexeme.readTokens`, one reader for what every driver of the scanner does
with a line. It is orderly as the reader of one token is, and where it
fails, the head is where that one token failed.
-/

namespace BasicLexer

namespace Lexeme

/-- The tokens from the head on, through that of the end of the line. -/
def readTokens (options : Options) (h : Head) :
    EStateM.Result (Failure Cause) Head (List Token) :=
  match _hread : read options h with
  | .error failure h' => .error failure h'
  | .ok t h' =>
    if _hend : t.kind = .endOfLine then .ok [t] h'
    else
      match readTokens options h' with
      | .ok rest h'' => .ok (t :: rest) h''
      | .error failure h'' => .error failure h''
  termination_by h.ahead.length
  decreasing_by exact (length_ahead_read _hread).resolve_right fun hlast => _hend hlast.1

variable {options : Options} {h h' h'' : Head} {t : Token} {rest : List Token}

theorem readTokens_of_error {failure : Failure Cause} (hread : read options h = .error failure h') :
    readTokens options h = .error failure h' := by
  rw [readTokens]
  split <;> rename_i hagain <;> rw [hread] at hagain <;> cases hagain
  rfl

theorem readTokens_of_end (hread : read options h = .ok t h') (hend : t.kind = .endOfLine) :
    readTokens options h = .ok [t] h' := by
  rw [readTokens]
  split <;> rename_i hagain <;> rw [hread] at hagain <;> cases hagain
  rw [dif_pos hend]

theorem readTokens_of_more (hread : read options h = .ok t h') (hend : t.kind ≠ .endOfLine) :
    readTokens options h =
      match readTokens options h' with
      | .ok rest h'' => .ok (t :: rest) h''
      | .error failure h'' => .error failure h'' := by
  rw [readTokens]
  split <;> rename_i hagain <;> rw [hread] at hagain <;> cases hagain
  rw [dif_neg hend]

/-- **Reading a line to its end keeps to the line**, and breaks no
contract. -/
theorem orderly_readTokens (options : Options) : Reader.Orderly (readTokens options) := by
  intro h
  have hleads := orderly_read options h
  fun_induction readTokens options h with
  | case1 h failure h' hread =>
    rw [hread] at hleads
    cases failure <;> exact hleads
  | case2 h t h' hread hend =>
    rw [hread] at hleads
    exact hleads
  | case3 h t h' hread hend rest h'' hrest ih =>
    rw [hread] at hleads
    have hmore := ih (orderly_read options h')
    rw [hrest] at hmore
    exact Head.Along.trans hleads hmore
  | case4 h t h' hread hend failure h'' hrest ih =>
    rw [hread] at hleads
    have hmore := ih (orderly_read options h')
    rw [hrest] at hmore
    -- the failure is the same whatever it is a failure to give
    cases failure with
    | reported cause => exact Head.Along.trans hleads hmore
    | breach breach => exact hmore

end Lexeme

end BasicLexer
