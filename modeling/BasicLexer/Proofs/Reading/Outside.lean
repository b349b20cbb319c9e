import BasicLexer.Proofs.Reading.Groups
import BasicLexer.Proofs.Reading.Kept
import BasicLexer.Proofs.Reading.WholeText

/-!
# Reading — the bytes outside comments

`Bytes.outside` goes over a line once and keeps the bytes that stand outside
comments, each with its column. That is what reading on from a head shows
(`Head.sights_eq_outside`), however often the head looked ahead and went back
before. So the first byte of the next token is the first that stands neither
in a comment nor among blanks (`Reader.find?_outside`), and there a token that
fails is noted (`Lexeme.first_of_refused`).
-/

namespace BasicLexer

open Reader

namespace Bytes

/-- The bytes of a line that stand outside comments, from a column on and
inside a block comment or not, each with its column. -/
def outside : (inComment : Bool) → (column : Nat) → Bytes → Shown
  | _, _, [] => []
  | true, _, [_] => []
  | true, column, b :: c :: rest =>
    if b = Byte.asterisk ∧ c = Byte.slash then outside false (column + 2) rest
    else outside true (column + 1) (c :: rest)
  | false, column, [b] => [(b, column)]
  | false, column, b :: c :: rest =>
    if b = Byte.slash ∧ c = Byte.slash then []
    else if b = Byte.slash ∧ c = Byte.asterisk then outside true (column + 2) rest
    else (b, column) :: outside false (column + 1) (c :: rest)

end Bytes

namespace Sight

open Bytes

variable {inComment : Bool} {passed : Nat} {rest : Bytes}

/-- A byte that is seen is the first outside comments, and the others come
behind it. -/
theorem outside_of_byte {b : Byte} {reach : Nat} (column : Nat)
    (hsight : ofRest inComment passed rest = .byte b reach) :
    outside inComment (column + passed) rest =
      (b, column + reach - 1) :: outside false (column + reach) (rest.drop (reach - passed)) := by
  fun_induction ofRest inComment passed rest with
  | case1 | case2 | case5 | case7 => cases hsight
  | case3 passed c d rest hcloses ih =>
    rw [outside, if_pos hcloses, sub_of_reach 2 hsight]
    exact ih hsight
  | case4 passed c d rest hcloses ih =>
    rw [outside, if_neg hcloses, sub_of_reach 1 hsight]
    exact ih hsight
  | case6 passed c =>
    cases hsight
    rw [Nat.add_sub_cancel_left]
    rfl
  | case8 passed c d rest hline hblock ih =>
    rw [outside, if_neg hline, if_pos hblock, sub_of_reach 2 hsight]
    exact ih hsight
  | case9 passed c d rest hline hblock =>
    cases hsight
    rw [outside, if_neg hline, if_neg hblock, Nat.add_sub_cancel_left]
    rfl

/-- Where none is seen, none stands outside comments. -/
theorem outside_of_none (column : Nat)
    (hsight : ∀ b reach, ofRest inComment passed rest ≠ .byte b reach) :
    outside inComment column rest = [] := by
  fun_induction ofRest inComment passed rest generalizing column with
  | case1 | case2 | case5 => rfl
  | case3 passed c d rest hcloses ih => rw [outside, if_pos hcloses, ih _ hsight]
  | case4 passed c d rest hcloses ih => rw [outside, if_neg hcloses, ih _ hsight]
  | case6 passed c => exact absurd rfl (hsight c (passed + 1))
  | case7 passed c d rest hline => rw [outside, if_pos hline]
  | case8 passed c d rest hline hblock ih => rw [outside, if_neg hline, if_pos hblock, ih _ hsight]
  | case9 passed c d rest hline hblock => exact absurd rfl (hsight c (passed + 1))

end Sight

/-- **What reading on shows** is what stands outside comments. -/
theorem Head.sights_eq_outside (h : Head) :
    h.sights = Bytes.outside h.inComment h.column h.ahead := by
  fun_induction sights h with
  | case1 h b hnext ih =>
    rw [ih]
    cases hsight : Sight.ofRest h.inComment 0 h.ahead with
    | exhausted | hidden =>
      rw [next, hsight] at hnext
      cases hnext
    | byte c reach =>
      have houtside := Sight.outside_of_byte h.column hsight
      simp only [next, hsight] at hnext ⊢
      cases hnext
      exact houtside.symm
  | case2 h hnext =>
    have hsight : ∀ b reach, Sight.ofRest h.inComment 0 h.ahead ≠ .byte b reach := by
      intro b reach hbyte
      rw [next, hbyte] at hnext
      cases hnext
    exact (Sight.outside_of_none h.column hsight).symm

/-- **The byte that blanks and comments are skipped for** is the first that
is no blank and stands outside comments. -/
theorem Reader.find?_outside {h h' : Head} {b : Byte} (hskip : skipBlanksFrom h = (some b, h')) :
    (Bytes.outside h.inComment h.column h.ahead).find? (fun sight => !sight.1.isBlank) =
      some (b, h'.column - 1) := by
  rw [List.find?_not_eq_head?_dropWhile, ← h.sights_eq_outside, dropWhile_sights, hskip,
    List.head?_cons]

namespace Lexeme

/-- **A token that is refused** is noted at its first byte, and that is the
first byte that is no blank and stands outside comments. -/
theorem first_of_refused {options : Options} {h h' : Head} {cause : Cause} (hplaced : h.Placed)
    (hread : read options h = .error (.reported cause) h') :
    ∃ b, (Bytes.outside h.inComment h.column (h.line.drop h.column)).find?
        (fun sight => !sight.1.isBlank) = some (b, h'.tokenStart) ∧
      h.line[h'.tokenStart]? = some b ∧ b.isBlank = false := by
  have halong := along_skipBlanksFrom h
  rw [read_eq] at hread
  rcases hskip : Reader.skipBlanksFrom h with ⟨_ | b, h₁⟩ <;> rw [hskip] at hread halong <;>
    dsimp only at hread halong
  · cases hread
  -- the column that is noted before the token is read is still noted when it fails
  have hstart : h'.tokenStart = h₁.column - 1 :=
    (preserves_readFrom (Head.moved_tokenStart (h₁.column - 1)) options _ b).of_run rfl hread
  obtain ⟨-, hbyte⟩ := (halong.placed hplaced).getElem?_line (behind_skipBlanksFrom hskip)
  rw [halong.line] at hbyte
  rw [← hplaced.ahead_eq, hstart]
  exact ⟨b, Reader.find?_outside hskip, hbyte, isBlank_of_skipBlanksFrom hskip⟩

end Lexeme

end BasicLexer
