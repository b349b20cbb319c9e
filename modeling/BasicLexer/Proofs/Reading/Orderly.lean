import BasicLexer.Proofs.Reading.Along

/-!
# Reading — every reader of tokens is orderly

Words, numbers and literals are read by loops and lookahead over the few
primitive readers. Each keeps to the line because its parts do; the loops
by induction on what is ahead, and the lookahead for compounds because it
either goes on or goes back to the very head it marked.
-/

namespace BasicLexer

open Reader

/-! ## Words -/

namespace Word

theorem orderly_read (options : Options) (first : Byte) : (read options first).Orderly := by
  intro h
  unfold read
  generalize [first] = word
  generalize options.maxToken - 1 = room
  -- the loop takes a byte that continues the word at every turn but the last
  fun_induction tailFrom word room h with
  | case1 word h b h₁ hstep => exact (orderly_nextIf _).along_of_ok hstep
  | case2 word h b h₁ hstep room ih =>
    exact LeadsAlong.trans ((orderly_nextIf _).along_of_ok hstep) ih
  | case3 word room h h₁ hstep => exact (orderly_nextIf _).along_of_ok hstep
  | case4 word room h failure h₁ hstep => exact absurd hstep nextIf_ne_error

theorem orderly_readSecond (options : Options) (first : Keyword) :
    (readSecond options first).Orderly := by
  refine .bind orderly_skipBlanks fun found => ?_
  cases found with
  | none => exact .pure _
  | some b =>
    by_cases hword : b.isWord = true
    · simp only [hword, if_true]
      exact .bind (orderly_read options b) fun _ => .pure _
    · simp only [hword]
      exact .pure _

theorem orderly_readCompound (options : Options) (first : Keyword) :
    (readCompound options first).Orderly := by
  intro h
  have hsecond := orderly_readSecond options first h
  rw [readCompound_apply]
  split
  · rename_i hrun
    rwa [hrun] at hsecond
  -- a miss goes back to the head that was marked, wherever the lookahead got
  · exact Head.Along.refl h
  · rename_i failure h' hrun
    rw [hrun] at hsecond
    cases failure <;> exact hsecond

theorem orderly_readToken (options : Options) (start : Nat) (first : Byte) :
    (readToken options start first).Orderly := by
  refine .bind (orderly_read options first) fun word => ?_
  cases keyword? word with
  | none => exact .pure _
  | some k =>
    by_cases hopens : k.opensCompound = true
    · simp only [hopens, if_true]
      refine .bind (orderly_readCompound options k) fun found => ?_
      cases found <;> exact .pure _
    · simp only [hopens]
      exact .pure _

end Word

/-! ## Numbers -/

namespace Numeral

theorem orderly_digits (radix : Radix) (first : Bytes) : (digits radix first).Orderly := by
  intro h
  unfold digits
  generalize first.reverse = taken
  fun_induction digitsFrom radix taken h with
  | case1 taken h b h₁ hstep ih =>
    exact LeadsAlong.trans ((orderly_nextIf _).along_of_ok hstep) ih
  | case2 taken h h₁ hstep => exact (orderly_nextIf _).along_of_ok hstep
  | case3 taken h failure h₁ hstep => exact absurd hstep nextIf_ne_error

theorem orderly_read (options : Options) (radix : Radix) (first : Bytes) :
    (read options radix first).Orderly := by
  refine .bind (orderly_digits radix first) fun digits => ?_
  dsimp only
  split
  · exact .fail _
  · exact .pure _

end Numeral

/-! ## Literals in quotes -/

namespace Quotation

/-- How far into a line the inside of a string reaches: past one byte at
least, and never past its end. -/
theorem reach_bodyFrom (contents : Bytes) (passed room : Nat) (rest : Bytes) :
    match bodyFrom contents passed room rest with
    | .closed _ reach => passed < reach ∧ reach ≤ passed + rest.length
    | .tooLong reach => passed < reach ∧ reach ≤ passed + rest.length
    | .unterminated => True := by
  fun_induction bodyFrom contents passed room rest with
  | case1 | case4 => trivial
  | case2 | case3 | case5 | case6 => simp only [List.length_cons]; omega
  -- an escape passes two bytes and any other byte one, and the rest is shorter by as many
  | case7 contents passed room c rest _ _ ih
  | case8 contents passed room b c rest _ _ _ ih =>
    split at ih
    · simp only [List.length_cons] at ih ⊢; omega
    · simp only [List.length_cons] at ih ⊢; omega
    · trivial

theorem orderly_readString (options : Options) : (readString options).Orderly := by
  intro h
  have hreach := reach_bodyFrom [] 0 options.maxToken h.ahead
  unfold readString
  cases hbody : bodyFrom [] 0 options.maxToken h.ahead with
  | closed contents reach =>
    simp only [hbody, Nat.zero_add] at hreach
    exact (Head.along_forward hreach.2).note h.inComment .consumed
  | tooLong reach =>
    simp only [hbody, Nat.zero_add] at hreach
    exact (Head.along_forward hreach.2).note h.inComment .consumed
  | unterminated => exact (Head.along_forward (Nat.le_refl _)).note h.inComment .atEnd

theorem orderly_readEscape : readEscape.Orderly := by
  refine .bind Reader.orderly_read fun b => ?_
  cases b <;> exact .pure _

theorem orderly_readContent : readContent.Orderly := by
  refine .bind Reader.orderly_read fun b => ?_
  cases b with
  | none => exact .fail _
  | some b =>
    by_cases hescape : b = Byte.backslash
    · simp only [hescape, if_true]
      exact orderly_readEscape
    · simp only [hescape, if_false]
      exact .pure _

theorem orderly_readCharacter : readCharacter.Orderly := by
  refine .bind orderly_readContent fun content => ?_
  refine .bind Reader.orderly_read fun b => ?_
  split
  · exact .pure _
  · exact .fail _

end Quotation

/-! ## Tokens -/

namespace Lexeme

theorem orderly_readOperator (start : Nat) (b : Byte) : (readOperator start b).Orderly := by
  refine .bind (orderly_nextIf _) fun found => ?_
  cases found <;> exact .pure _

theorem orderly_readMarker (b : Byte) : (readMarker b).Orderly := by
  unfold readMarker
  split
  · exact orderly_nextIf _
  · exact .pure _

theorem orderly_readNumber (options : Options) (start : Nat) (b : Byte) :
    (readNumber options start b).Orderly :=
  .bind (orderly_readMarker b) fun _ => .bind (Numeral.orderly_read _ _ _) fun _ => .pure _

theorem orderly_readFrom (options : Options) (start : Nat) (b : Byte) :
    (readFrom options start b).Orderly := by
  unfold readFrom
  split
  · exact .bind (Quotation.orderly_readString options) fun _ => .pure _
  split
  · exact .bind Quotation.orderly_readCharacter fun _ => .pure _
  split
  · exact orderly_readOperator start b
  split
  · exact orderly_readNumber options start b
  split
  · exact Word.orderly_readToken options start b
  · exact .pure _

/-- The start that is noted lies within the line, since the head does. -/
theorem orderly_noteStart (found : Bool) : (noteStart found).Orderly := by
  intro h
  refine ⟨rfl, id, fun hplaced _ => ?_⟩
  have hle := hplaced.column_le
  show (if found then h.column - 1 else h.column) ≤ h.lineLength
  split <;> omega

/-- **Reading a token keeps to the line**, and breaks no contract. -/
theorem orderly_read (options : Options) : (read options).Orderly := by
  refine .bind orderly_skipBlanks fun first => ?_
  refine .bind (orderly_noteStart _) fun start => ?_
  cases first with
  | none => exact .pure _
  | some b => exact orderly_readFrom options start b

end Lexeme

end BasicLexer
