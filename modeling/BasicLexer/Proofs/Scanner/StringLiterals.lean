import BasicLexer.Proofs.Reading.Spellings
import BasicLexer.Proofs.Reading.Uncommented

/-!
# Scanner — string literals

A string literal is decoded to exactly what was spelled
(`Scan.getToken_of_spells`), and how one ends is exact at every length
(`Scan.string_outcome_iff`): it is a string, too long or unterminated, as
its characters and its closing quote have it. Where it is unterminated and
as long as may be, the newline of the line counts as one character more.
-/

namespace BasicLexer

open Quotation

/-- A head outside comments finds a double quote that it stands before. -/
theorem Reader.skipBlanksFrom_of_doubleQuote {h : Head} {rest : Bytes}
    (hcomment : h.inComment = false) (hahead : h.ahead = Byte.doubleQuote :: rest) :
    skipBlanksFrom h =
      (some Byte.doubleQuote, { h.forward 1 with inComment := false, lastRead := .consumed }) := by
  have hopens : ¬ Bytes.OpensComment Byte.doubleQuote rest.head? := fun hopens => nomatch hopens.1
  have hnext := Head.next_of_not_opens hcomment hahead hopens
  rw [skipBlanksFrom]
  split
  · rename_i b hb
    rw [hnext] at hb ⊢
    cases hb
    rfl
  · rename_i hnone
    rw [hnext] at hnone
    cases hnone

namespace Scan

variable {s : Scanner}

/-! ## Decoding -/

/-- **A string literal decodes to what was spelled.** Let the head stand,
outside comments, before contents spelled between double quotes, with any
text behind, and let the contents have room in a token. Then the next token
off the line is the string at the opening quote whose text are the contents,
and the head is left just behind the closing quote. A token that was saved
comes before it, and changes nothing of that. -/
theorem getToken_of_spells {written contents after : Bytes} (hcomment : s.head.inComment = false)
    (hahead : s.head.ahead = Byte.doubleQuote :: written ++ Byte.doubleQuote :: after)
    (hspells : Spells written contents) (hroom : contents.length ≤ s.options.maxToken) :
    let literal : Token := { kind := .string, text := contents.text, offset := s.head.column }
    let behind : Head :=
      { behind := Byte.doubleQuote :: written.reverse ++ Byte.doubleQuote :: s.head.behind
        ahead := after
        column := s.head.column + written.length + 2
        tokenStart := s.head.column
        inComment := false
        lastRead := .consumed }
    match s.saved with
    | none => getToken s = .ok literal { s with head := behind }
    | some t =>
      getToken s = .ok t { s with saved := none } ∧
        getToken { s with saved := none } =
          .ok literal { s with saved := none, head := behind } := by
  intro literal behind
  let opened : Head := { s.head.forward 1 with inComment := false, lastRead := .consumed }
  have hskip : Reader.skipBlanksFrom s.head = (some Byte.doubleQuote, opened) :=
    Reader.skipBlanksFrom_of_doubleQuote hcomment hahead
  have hopened : opened.ahead = written ++ Byte.doubleQuote :: after := by
    simp [opened, Head.forward, hahead]
  have hsplit : opened.ahead = (written ++ [Byte.doubleQuote]) ++ after := by
    rw [hopened, List.append_assoc, List.singleton_append]
  have hread : Lexeme.read s.options s.head = .ok literal behind := by
    have hforward := Head.forward_of_append hsplit
    rw [List.length_append, List.length_singleton] at hforward
    have hcolumn : opened.column + (written.length + 1) = behind.column := by
      show s.head.column + 1 + (written.length + 1) = s.head.column + written.length + 2
      omega
    rw [Lexeme.read_of_spells s.options hskip hopened hspells hroom, hforward, hcolumn]
    simp [opened, literal, behind, Head.forward, hahead]
  split
  · rename_i hsaved
    exact getToken_of_read hsaved hread
  · rename_i t hsaved
    exact ⟨getToken_of_saved hsaved, getToken_of_read (s := { s with saved := none }) rfl hread⟩

/-- The inside of a string with a character of each kind: `a\n\"/*\\é\q`. -/
def mixedInside : Bytes := [97, 92, 110, 92, 34, 47, 42, 92, 92, 233, 92, 113]

theorem spells_mixedInside : Spells mixedInside [97, 10, 34, 47, 42, 92, 233, 113] := by
  have hraw {b : Byte} (hb : b ≠ Byte.doubleQuote ∧ b ≠ Byte.backslash ∧ b ≠ Byte.newline) :
      Writes [b] b := .raw hb.1 hb.2.1 hb.2.2
  have hescaped {b : Byte} (hb : b ≠ Byte.letterN ∧ b ≠ Byte.letterR ∧ b ≠ Byte.letterT ∧
      b ≠ Byte.newline) : Writes [Byte.backslash, b] b := .escaped hb.1 hb.2.1 hb.2.2.1 hb.2.2.2
  exact .cons (hraw (by decide)) <| .cons .newline <| .cons (hescaped (by decide)) <|
    .cons (hraw (by decide)) <| .cons (hraw (by decide)) <| .cons (hescaped (by decide)) <|
    .cons (hraw (by decide)) <| .cons (hescaped (by decide)) .nil

/-- A scanner that admits eight characters, before that string, behind a word
and before a comment. -/
def beforeMixed : Scanner :=
  { Scanner.start { maxToken := 8 } (.ofTexts []) (.ofBytes []) with
    head := { behind := [88], ahead := 34 :: mixedInside ++ 34 :: [47, 47, 10], column := 1 } }

/-- It has eight characters. -/
theorem getToken_beforeMixed :
    beforeMixed.head.inComment = false ∧
      beforeMixed.head.ahead = Byte.doubleQuote :: mixedInside ++ Byte.doubleQuote :: [47, 47, 10] ∧
      Spells mixedInside [97, 10, 34, 47, 42, 92, 233, 113] ∧ 8 ≤ beforeMixed.options.maxToken ∧
      getToken beforeMixed =
        .ok { kind := .string, text := Bytes.text [97, 10, 34, 47, 42, 92, 233, 113], offset := 1 }
          { beforeMixed with
            head :=
              { behind := 34 :: mixedInside.reverse ++ [34, 88]
                ahead := [47, 47, 10]
                column := 15
                tokenStart := 1
                lastRead := .consumed } } :=
  ⟨rfl, rfl, spells_mixedInside, Nat.le_refl 8,
    getToken_of_spells (s := beforeMixed) rfl rfl spells_mixedInside (Nat.le_refl 8)⟩

/-! ## Where a literal ends -/

/-- **How a string literal ends is exact at every length.** Let a double
quote begin the next token off the line, and let the rest of the line be the
body behind it and the newline. The token is a string exactly if a quote
closes the body and the body has no more characters than are admitted; it
fails as too long exactly if there are more, or if the newline is one more;
and it fails as unterminated exactly if no quote closes the body, there are
no more characters than are admitted, and the newline is none too many. -/
theorem string_outcome_iff {h : Head} {body : Bytes} (hsaved : s.saved = none)
    (hskip : Reader.skipBlanksFrom s.head = (some Byte.doubleQuote, h))
    (hahead : h.ahead = body ++ [Byte.newline]) :
    let limit := s.options.maxToken
    let count := (inside body).characters.length
    ((∃ t s', getToken s = .ok t s' ∧ t.kind = .string) ↔
      (inside body).closed = true ∧ count ≤ limit) ∧
    ((∃ d s', getToken s = .error (.reported d) s' ∧ d.code = 1002) ↔
      limit < count ∨ (inside body).Overrun limit) ∧
    ((∃ d s', getToken s = .error (.reported d) s' ∧ d.code = 1003) ↔
      (inside body).closed = false ∧ count ≤ limit ∧ ¬ (inside body).Overrun limit) := by
  intro limit count
  have hlong : Cause.code .stringTooLong = 1002 := rfl
  have hopen : Cause.code .unterminatedString = 1003 := rfl
  have hread := Lexeme.read_of_doubleQuote s.options hskip
  rw [← Inside.refusal?_eq_none, ← Inside.refusal?_eq_tooLong,
    ← Inside.refusal?_eq_unterminated, ← refusal?_bodyFrom [] 0 limit body]
  rw [hahead] at hread
  rcases hbody : bodyFrom [] 0 limit (body ++ [Byte.newline]) with
    ⟨contents, reach⟩ | reach | _ <;> rw [hbody] at hread
  · simp [getToken_of_read hsaved hread, Body.refusal?]
  · simp [getToken_of_refused hsaved hread, fail, Diagnostic.ofCause, hlong, Body.refusal?]
  · simp [getToken_of_refused hsaved hread, fail, Diagnostic.ofCause, hopen, Body.refusal?]

/-- Two characters are admitted. The lone backslash of ` /**/"a\` is the second
and takes the newline, so the literal is unterminated; and so ends no other. -/
theorem string_outcome_backslash :
    let s : Scanner :=
      { Scanner.start { maxToken := 2 } (.ofTexts []) (.ofBytes []) with
        head := { ahead := [32, 47, 42, 42, 47, 34, 97, 92, 10] } }
    let h : Head :=
      { behind := [34, 47, 42, 42, 47, 32], ahead := [97, 92, 10], column := 6,
        lastRead := .consumed }
    s.saved = none ∧ Reader.skipBlanksFrom s.head = (some Byte.doubleQuote, h) ∧
      h.ahead = [97, 92] ++ [Byte.newline] ∧
      inside [97, 92] = { characters := [[97], [92]], closed := false } ∧
      (∃ d s', getToken s = .error (.reported d) s' ∧ d.code = 1003) := by
  intro s h
  have hskip : Reader.skipBlanksFrom s.head = (some Byte.doubleQuote, h) := by cbv
  have hahead : h.ahead = [97, 92] ++ [Byte.newline] := rfl
  have houtcome := string_outcome_iff (s := s) rfl hskip hahead
  exact ⟨rfl, hskip, hahead, by decide, houtcome.2.2.mpr (by decide)⟩

/-- **The newline is counted.** On the line `"ab` two characters are
admitted, and the literal has two and no closing quote; yet it fails as too
long, and not as unterminated. -/
theorem unterminated_string_too_long :
    ∃ s h, getLine (.start { maxToken := 2 } (.ofTexts []) (.ofBytes [34, 97, 98, 10])) =
        .ok true s ∧
      Reader.skipBlanksFrom s.head = (some Byte.doubleQuote, h) ∧
      h.ahead = [97, 98] ++ [Byte.newline] ∧
      inside [97, 98] = { characters := [[97], [98]], closed := false } ∧
      (∃ d s', getToken s = .error (.reported d) s' ∧ d.code = 1002) ∧
      ¬ ∃ d s', getToken s = .error (.reported d) s' ∧ d.code = 1003 := by
  let program : Source :=
    { contents := [[34, 97, 98, 10]], pending := [[]], fetches := 1 }
  let s : Scanner :=
    { options := { maxToken := 2 }
      resolver := .ofTexts []
      stack := { program, programLine := 1 }
      head := { ahead := [34, 97, 98, 10] } }
  let h : Head := { behind := [34], ahead := [97, 98, 10], column := 1, lastRead := .consumed }
  have hline : getLine (.start { maxToken := 2 } (.ofTexts []) (.ofBytes [34, 97, 98, 10])) =
      .ok true s := by cbv
  have hskip : Reader.skipBlanksFrom s.head = (some Byte.doubleQuote, h) := by cbv
  have hread := Lexeme.read_of_doubleQuote s.options hskip
  have hget := getToken_of_refused (s := s) rfl hread
  refine ⟨s, h, hline, hskip, rfl, by decide, ⟨_, _, hget, rfl⟩, ?_⟩
  rintro ⟨d, s', hrun, hcode⟩
  rw [hget] at hrun
  cases hrun
  exact absurd hcode (by decide)

end Scan

end BasicLexer
