import BasicLexer.Proofs.Input.Layout
import BasicLexer.Proofs.Reading.UpperCase
import BasicLexer.Proofs.Scanner.Respelled
import BasicLexer.Proofs.Scanner.Redaction

/-!
# Scanner — a program in capital letters

Capitals leave every newline where it is, so the lines of a program in
capital letters are its lines in capital letters
(`Bytes.logicalLines_upper`). Where there are no quotes they are spelled in
another way, and so the program is scanned to the same tokens in capital
letters, or fails at the same place (`Scan.scanAll_upper`).
-/

namespace BasicLexer

/-! ## Lines -/

namespace Bytes

theorem layout_upper (bytes : Bytes) : bytes.upper.layout = bytes.layout := by
  rw [layout, layout, upper, List.map_map]
  refine List.map_congr_left fun b _ => ?_
  have hnewline : b.upper = Byte.newline ↔ b = Byte.newline := Byte.upper_eq_iff rfl
  rw [Function.comp_apply, Bool.eq_iff_iff, beq_iff_eq, beq_iff_eq, hnewline]

theorem pieces_upper (limit : Nat) (text : Bytes) :
    pieces limit text.upper = (pieces limit text).map upper := by
  have hlayout : ((pieces limit text).map upper).map layout = (pieces limit text).map layout := by
    rw [List.map_map]
    exact List.map_congr_left fun piece _ => layout_upper piece
  have hwhole : ((pieces limit text).map upper).flatten = text.upper := by
    have hupper : (pieces limit text).map upper = (pieces limit text).map (List.map Byte.upper) :=
      rfl
    rw [hupper, ← List.map_flatten, (divided_pieces limit text).whole]
    rfl
  rw [← hwhole, pieces_flatten_of_layout hlayout]

theorem terminated_upper (line : Bytes) :
    Scan.terminated line.upper = (Scan.terminated line).upper := by
  have hlast := getLast?_newline_iff_of_layout (layout_upper line)
  rw [Scan.terminated, Scan.terminated]
  by_cases hline : line.getLast? = some Byte.newline
  · rw [if_pos hline, if_pos (hlast.mpr hline)]
  · rw [if_neg hline, if_neg (hlast.not.mpr hline), upper, upper, List.map_append]
    rfl

/-- **The lines of a text in capital letters** are its lines in capital
letters. -/
theorem logicalLines_upper (limit : Nat) (text : Bytes) :
    logicalLines limit text.upper = (logicalLines limit text).map upper := by
  rw [logicalLines, logicalLines, pieces_upper, List.map_map, List.map_map]
  exact List.map_congr_left fun piece _ => terminated_upper piece

end Bytes

/-! ## Tokens -/

/-- A token with its text in capital letters. -/
def Token.upper (t : Token) : Token := { t with text := t.text.toUpper }

/-- A token of a line in capital letters is that of the line with its text
in capital letters. -/
theorem Token.Respelled.eq_upper {t t' : Token} (hsame : t.Respelled Byte.upper Eq t') :
    t' = t.upper := by
  obtain ⟨kind, text, value, offset⟩ := t
  obtain ⟨kind', text', value', offset'⟩ := t'
  obtain ⟨hkind, hvalue, ⟨bytes, htext, htext'⟩, hoffset⟩ := hsame
  dsimp only at hkind hvalue htext htext' hoffset
  have hsame : offset' = offset := by
    split at hoffset
    · exact hoffset.symm
    · exact hoffset
  have hupper : text' = text.toUpper := by
    rw [htext, htext', ← Bytes.text_upper]
    rfl
  rw [Token.upper, hkind, hvalue, hsame, hupper]

namespace Scan

/-- **The case of letters is no matter** outside quotes. Take any program
without quotes, any options and any include files. In capital letters the
program is scanned to the same tokens, but with their texts in capital
letters; or both scans fail, with the same code, at the same line and column,
and with the text of the line in capital letters. -/
theorem scanAll_upper (options : Options) (resolver resolver' : Resolver) {program : Bytes}
    (hquotes : ∀ b ∈ program, b ≠ Byte.doubleQuote ∧ b ≠ Byte.singleQuote) :
    match scanAll (.start options resolver (.ofBytes program)),
      scanAll (.start options resolver' (.ofBytes program.upper)) with
    | .ok tokens _, .ok tokens' _ => tokens' = tokens.map Token.upper
    | .error (.reported d) _, .error (.reported d') _ =>
      d'.code = d.code ∧ ∃ p, d.position = some p ∧
        d'.position = some { p with text := p.text.toUpper }
    | _, _ => False := by
  have hlines : List.Forall₂ Respelling.capitals.Lines
      (Bytes.logicalLines options.maxLine program)
      (Bytes.logicalLines options.maxLine program.upper) := by
    rw [Bytes.logicalLines_upper, List.forall₂_map_right_iff, List.forall₂_same]
    intro line hline inComment
    refine ⟨rfl, ?_⟩
    exact not_quote_of_mem_logicalLines hquotes line hline
  rcases Respelling.outcomes_scanAll resolver resolver' hlines with
    ⟨tokens, tokens', s, s', hrun, hrun', htokens⟩ | ⟨failure, failure', s, s', hrun, hrun', hsame⟩
  · rw [hrun, hrun']
    have hupper : List.Forall₂ Eq (tokens.map Token.upper) tokens' :=
      List.forall₂_map_left_iff.mpr (htokens.imp fun _ _ hsame => hsame.eq_upper.symm)
    rw [List.forall₂_eq_eq_eq] at hupper
    exact hupper.symm
  · rw [hrun, hrun']
    cases hsame with
    | @same cause cause' h h' number line line' hrefused hlines =>
      have hline : line' = line.upper := congrArg Head.ahead (hlines false).1
      have hcolumn : h'.tokenStart = h.tokenStart := hrefused.2
      refine ⟨hrefused.1, _, rfl, ?_⟩
      rw [hline, Bytes.text_upper, hcolumn]
      rfl

/-- One line, `do while 0xf`. -/
def smallProgram : Bytes := [100, 111, 32, 119, 104, 105, 108, 101, 32, 48, 120, 102, 10]

/-- It has the same keyword and the same number as `DO WHILE 0XF`. -/
theorem scanAll_upper_smallProgram :
    let tokens : List Token :=
      [{ kind := .compound .doWhile, text := "do while", offset := 0 },
        { kind := .number, text := "f", value := 15, offset := 9 },
        { kind := .endOfLine, offset := 13 }, Listing.endToken]
    ∃ s s', scanAll (.start {} (.ofTexts []) (.ofBytes smallProgram)) = .ok tokens s ∧
      scanAll (.start {} (.ofTexts []) (.ofBytes smallProgram.upper)) =
        .ok (tokens.map Token.upper) s' := by
  intro tokens
  have hquotes : ∀ b ∈ smallProgram, b ≠ Byte.doubleQuote ∧ b ≠ Byte.singleQuote := by
    decide +kernel
  have houtcome : outcome {} 0 false (Bytes.logicalLines 128 smallProgram) =
      .ok (tokens, false) := by
    decide +kernel
  have hends := scanAll_start {} (.ofTexts []) smallProgram
  have hupper := scanAll_upper {} (.ofTexts []) (.ofTexts []) hquotes
  rw [houtcome] at hends
  obtain ⟨s, hrun, -⟩ := hends
  rw [hrun] at hupper
  rcases hrun' : scanAll (.start {} (.ofTexts []) (.ofBytes smallProgram.upper)) with
    ⟨tokens', s'⟩ | ⟨failure, s'⟩ <;> rw [hrun'] at hupper
  · exact ⟨s, s', hrun, by rw [hupper]⟩
  · exact hupper.elim

end Scan

end BasicLexer
