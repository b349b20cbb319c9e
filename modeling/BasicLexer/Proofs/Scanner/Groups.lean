import BasicLexer.Proofs.Reading.Groups
import BasicLexer.Proofs.Scanner.Outcome

/-!
# Scanner — one group of tokens for each line

All that a scan gives of a program are the groups of its logical lines, one
after the other, and the end of the file (`Scan.scanAll_groups`).
-/

namespace BasicLexer

namespace Scan

/-- **Line for line**, the tokens are the groups of the lines. -/
theorem groups_of_outcome {options : Options} {number : Nat} {inComment isOpen : Bool}
    {lines : List Bytes} {tokens : List Token}
    (houtcome : outcome options number inComment lines = .ok (tokens, isOpen)) :
    ∃ groups, tokens = groups.flatten ++ [Listing.endToken] ∧
      List.Forall₂ Token.Group lines groups := by
  induction lines generalizing number inComment tokens with
  | nil =>
    cases houtcome
    exact ⟨[], rfl, .nil⟩
  | cons line rest ih =>
    obtain ⟨these, h, more, hread, hrest, rfl⟩ := outcome_cons_eq_ok houtcome
    obtain ⟨groups, rfl, hgroups⟩ := ih hrest
    refine ⟨these :: groups, ?_, .cons (Lexeme.group_readTokens hread) hgroups⟩
    rw [List.flatten_cons, List.append_assoc]

/-- **The shape of a scan.** Where all of a program is scanned, the tokens
are one group for each of its logical lines, in their order, and then that of
the end of the file, at column zero. A group is made of tokens in the order of
their columns, each at the byte that it begins with, and of the token of the
end of the line, at the line's length. It is the only one of its kind there,
for the ends of lines and files begin with no byte. -/
theorem scanAll_groups {options : Options} {resolver : Resolver} {program : Bytes}
    {tokens : List Token} {s : Scanner}
    (hscan : scanAll (.start options resolver (.ofBytes program)) = .ok tokens s) :
    ∃ groups, tokens = groups.flatten ++ [{ kind := .endOfFile, offset := 0 }] ∧
      List.Forall₂ Token.Group (Bytes.logicalLines options.maxLine program) groups :=
  groups_of_outcome (outcome_of_scanAll hscan)

/-- Two lines, `/* */If 0x1F` and `'a'`, the second without its newline. -/
def unendedLines : Bytes := [47, 42, 32, 42, 47, 73, 102, 32, 48, 120, 49, 70, 10, 39, 97, 39]

/-- Their tokens have the columns 5, 8 and 13, and 0 and 4. -/
theorem scanAll_groups_unendedLines :
    ∃ tokens s groups,
      scanAll (.start {} (.ofTexts []) (.ofBytes unendedLines)) = .ok tokens s ∧
        tokens.map Token.offset = [5, 8, 13, 0, 4, 0] ∧
        tokens = groups.flatten ++ [{ kind := .endOfFile, offset := 0 }] ∧
        List.Forall₂ Token.Group (Bytes.logicalLines 128 unendedLines) groups := by
  have htokens : outcome {} 0 false (Bytes.logicalLines 128 unendedLines) =
      .ok ([{ kind := .keyword .IF, text := "If", offset := 5 },
        { kind := .number, text := "1F", value := 31, offset := 8 },
        { kind := .endOfLine, offset := 13 },
        { kind := .number, text := "a", value := 97, offset := 0 },
        { kind := .endOfLine, offset := 4 }, Listing.endToken], false) := by
    decide +kernel
  have hends := scanAll_start {} (.ofTexts []) unendedLines
  rw [htokens] at hends
  obtain ⟨s, hrun, -⟩ := hends
  obtain ⟨groups, hflatten, hgroups⟩ := scanAll_groups hrun
  exact ⟨_, s, groups, hrun, rfl, hflatten, hgroups⟩

end Scan

end BasicLexer
