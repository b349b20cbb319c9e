import BasicLexer.Proofs.Reading.Conformity

/-!
# Scanner — the tokens of a line

`Scan.lineTokens` takes tokens until the line ends or one fails. On a
line that shows no quote they are what the grammar makes of the sights
(`Scan.lineTokens_of_unquoted`), and so are the cause of a failure and the
tokens before it.
-/

namespace BasicLexer

open Reader Grammar

namespace Scan

/-- The tokens from the next one on, through that of the end of the line
or up to a failure. -/
def lineTokens (s : Scanner) : (List Token × Option (Failure Diagnostic)) × Scanner :=
  match _hrun : getToken s with
  | .error failure s' => (([], some failure), s')
  | .ok token s' =>
    if _hend : token.kind = .endOfLine then (([token], none), s')
    else
      let rest := lineTokens s'
      ((token :: rest.1.1, rest.1.2), rest.2)
  termination_by s.supply
  decreasing_by
    rcases supply_getToken _hrun with hlt | ⟨hkind, -⟩
    · exact hlt
    · exact absurd hkind _hend

section Steps

variable {s s' : Scanner} {token : Token}

theorem lineTokens_of_error {failure : Failure Diagnostic}
    (hrun : getToken s = .error failure s') : lineTokens s = (([], some failure), s') := by
  rw [lineTokens]
  split
  · rename_i hagain
    rw [hrun] at hagain
    cases hagain
    rfl
  · rename_i hagain
    rw [hrun] at hagain
    cases hagain

theorem lineTokens_of_end (hrun : getToken s = .ok token s') (hend : token.kind = .endOfLine) :
    lineTokens s = (([token], none), s') := by
  rw [lineTokens]
  split
  · rename_i hagain
    rw [hrun] at hagain
    cases hagain
  · rename_i hagain
    rw [hrun] at hagain
    cases hagain
    rw [dif_pos hend]

theorem lineTokens_of_more (hrun : getToken s = .ok token s') (hend : token.kind ≠ .endOfLine) :
    lineTokens s =
      ((token :: (lineTokens s').1.1, (lineTokens s').1.2), (lineTokens s').2) := by
  rw [lineTokens]
  split
  · rename_i hagain
    rw [hrun] at hagain
    cases hagain
  · rename_i hagain
    rw [hrun] at hagain
    cases hagain
    rw [dif_neg hend]

/-- A token that is read off the line is the next one, and the head is
still on the line. -/
theorem getToken_of_ends (hsaved : s.saved = none) {rest : Shown}
    (hends : Ends (Lexeme.read s.options s.head) (.ok (token, rest))) :
    ∃ h, getToken s = .ok token { s with head := h } ∧ h.sights = rest ∧ s.head.Along h := by
  obtain ⟨h, hread, hrest⟩ := hends
  exact ⟨h, getToken_of_read hsaved hread, hrest, (Lexeme.orderly_read _).along_of_ok hread⟩

end Steps

/-! ### How many they are -/

/-- A line gives no more tokens than it has bytes, and one. A failure
counts as the last of them. -/
theorem length_lineTokens_le (s : Scanner) :
    (lineTokens s).1.1.length + (lineTokens s).1.2.toList.length ≤ s.supply + 1 := by
  fun_induction lineTokens s with
  | case1 s failure s' hrun => simp
  | case2 s token s' hrun hend => simp
  | case3 s token s' hrun hend rest ih =>
    subst rest
    rcases supply_getToken hrun with hlt | ⟨hkind, -⟩
    · simp only [List.length_cons]
      omega
    · exact absurd hkind hend

/-- Where none fails, the last is that of the end of the line. -/
theorem getLast?_lineTokens (s : Scanner) : (lineTokens s).1.2 = none →
    ∃ last, (lineTokens s).1.1.getLast? = some last ∧ last.kind = .endOfLine := by
  fun_induction lineTokens s with
  | case1 s failure s' hrun => exact nofun
  | case2 s token s' hrun hend => exact fun _ => ⟨token, rfl, hend⟩
  | case3 s token s' hrun hend rest ih =>
    subst rest
    intro hnone
    obtain ⟨last, hlast, hkind⟩ := ih hnone
    refine ⟨last, ?_, hkind⟩
    rw [List.getLast?_cons, hlast]
    rfl

/-- What tokens can come of, where a line was fetched, is the line. -/
theorem supply_getLine {s s' : Scanner} (hline : getLine s = .ok true s') :
    s'.supply = s'.head.lineLength := by
  obtain ⟨_, _, _, -, rfl⟩ := fetch_of_getLine hline
  simp [Scanner.supply, Head.load, Head.lineLength]

/-! ### Lines without quotes -/

/-- **The tokens of a line without quotes** are those of the grammar, and
so is what they end in. -/
theorem lineTokens_of_unquoted {s : Scanner} (hsaved : s.saved = none) (hplaced : s.head.Placed)
    (hquotes : ∀ b ∈ s.head.visible, b ≠ Byte.doubleQuote ∧ b ≠ Byte.singleQuote) :
    ∃ position s', lineTokens s =
      (((scan s.options s.head.lineLength s.head.sights).1,
        (scan s.options s.head.lineLength s.head.sights).2.map fun cause =>
          .reported (.ofCause cause position)), s') := by
  induction hlength : s.head.sights.length using Nat.strongRecOn generalizing s with
  | ind n ih =>
    have hget := getToken_of_unsaved hsaved
    rw [reading] at hget
    rcases Lexeme.read_of_unquoted s.options hplaced hquotes with
      ⟨h, hread, -, hscan⟩ | ⟨cause, h, hread, hscan⟩ |
      ⟨t, h, hread, hkind, halong, hshorter, hquotes', hscan⟩ <;> rw [hread] at hget <;> rw [hscan]
    · exact ⟨none, _, lineTokens_of_end hget rfl⟩
    · exact ⟨_, _, lineTokens_of_error hget⟩
    · obtain ⟨position, s', hrest⟩ :=
        ih _ (hlength ▸ hshorter) (s := { s with head := h }) hsaved (halong.placed hplaced)
          hquotes' rfl
      exact ⟨position, s', by rw [lineTokens_of_more hget hkind, hrest]⟩

end Scan

end BasicLexer
