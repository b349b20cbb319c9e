import BasicLexer.Proofs.Input.LogicalLines
import BasicLexer.Proofs.Reading.Uncommented

/-!
# Reading — the comments of a whole text

`Bytes.uncomment` removes comments from a text in one pass over it, with
no regard to lines but where two slashes drop the rest of one. Reading a
line to its end shows what this pass emits for the line, whatever comes
after it, and leaves the head in the state of the pass there
(`Head.uncomment_line`). What the pass emits holds no comment, so a second
pass would emit it again (`Bytes.uncomment_uncomment`).
-/

namespace BasicLexer

namespace Bytes

/-- What comes after the first newline. -/
def afterLine (text : Bytes) : Bytes := (text.dropWhile (· != Byte.newline)).tail

theorem length_afterLine_le (text : Bytes) : (afterLine text).length ≤ text.length := by
  have := (List.dropWhile_suffix (· != Byte.newline) (l := text)).length_le
  rw [afterLine, List.length_tail]
  omega

/-- Remove the comments of a text that begins inside a block comment or
not: the bytes that are left, and whether a block comment is open at the
end. -/
def uncomment (inComment : Bool) : Bytes → Bytes × Bool
  | [] => ([], inComment)
  | b :: rest =>
    if inComment then
      if b = Byte.asterisk ∧ rest.head? = some Byte.slash then uncomment false rest.tail
      else uncomment true rest
    else if b = Byte.slash ∧ rest.head? = some Byte.slash then uncomment false (afterLine rest)
    else if b = Byte.slash ∧ rest.head? = some Byte.asterisk then uncomment true rest.tail
    else
      let next := uncomment false rest
      (b :: next.1, next.2)
  termination_by text => text.length
  decreasing_by
    all_goals
      have := length_afterLine_le rest
      simp only [List.length_cons, List.length_tail]
      omega

/-! ### Its steps -/

section Steps

variable {b : Byte} {rest : Bytes}

/-- Outside a comment, a byte that opens none is left. -/
theorem uncomment_of_not_opens (hopens : ¬ OpensComment b rest.head?) :
    uncomment false (b :: rest) = (b :: (uncomment false rest).1, (uncomment false rest).2) := by
  rw [uncomment, if_neg Bool.false_ne_true, if_neg fun h => hopens ⟨h.1, .inl h.2⟩,
    if_neg fun h => hopens ⟨h.1, .inr h.2⟩]

/-- Two slashes drop what comes before the next line. -/
theorem uncomment_slashes (rest : Bytes) :
    uncomment false (Byte.slash :: Byte.slash :: rest) =
      uncomment false (afterLine (Byte.slash :: rest)) := by
  rw [uncomment, if_neg Bool.false_ne_true, if_pos ⟨rfl, rfl⟩]

/-- A slash and an asterisk open a block comment. -/
theorem uncomment_open (rest : Bytes) :
    uncomment false (Byte.slash :: Byte.asterisk :: rest) = uncomment true rest := by
  have hasterisk : Byte.asterisk ≠ Byte.slash := by decide
  rw [uncomment, if_neg Bool.false_ne_true, if_neg fun h => hasterisk (Option.some.inj h.2),
    if_pos ⟨rfl, rfl⟩, List.tail_cons]

/-- An asterisk and a slash close it. -/
theorem uncomment_close (rest : Bytes) :
    uncomment true (Byte.asterisk :: Byte.slash :: rest) = uncomment false rest := by
  rw [uncomment, if_pos rfl, if_pos ⟨rfl, rfl⟩, List.tail_cons]

/-- Every other byte in it is dropped. -/
theorem uncomment_of_not_closes (hcloses : ¬ (b = Byte.asterisk ∧ rest.head? = some Byte.slash)) :
    uncomment true (b :: rest) = uncomment true rest := by
  rw [uncomment, if_pos rfl, if_neg hcloses]

theorem uncomment_inside {c : Byte} (hcloses : ¬ (b = Byte.asterisk ∧ c = Byte.slash)) :
    uncomment true (b :: c :: rest) = uncomment true (c :: rest) :=
  uncomment_of_not_closes fun h => hcloses ⟨h.1, Option.some.inj h.2⟩

end Steps

/-! ## What is left -/

/-- Bytes without comments are left as they are. -/
theorem uncomment_of_uncommented {text : Bytes} (huncommented : text.Uncommented) :
    uncomment false text = (text, false) := by
  induction text with
  | nil => rw [uncomment]
  | cons b rest ih =>
    obtain ⟨hopens, hrest⟩ := uncommented_cons.mp huncommented
    rw [uncomment_of_not_opens hopens, ih hrest]

/-- **What is left holds no comment.** -/
theorem uncommented_uncomment (inComment : Bool) (text : Bytes) :
    (uncomment inComment text).1.Uncommented := by
  fun_induction uncomment inComment text with
  | case1 => exact uncommented_nil
  | case2 _ _ _ ih | case3 _ _ _ ih | case4 _ _ _ _ _ ih | case5 _ _ _ _ _ _ ih => exact ih
  | case6 inComment b rest _ hline hblock next ih =>
    refine uncommented_cons.mpr ⟨?_, ih⟩
    rintro ⟨rfl, hopened⟩
    have hopens : ¬ OpensComment Byte.slash rest.head? := fun h =>
      h.2.elim (fun h => hline ⟨rfl, h⟩) fun h => hblock ⟨rfl, h⟩
    -- the byte after a slash that is left is left too, so it is what follows the slash
    have hhead : next.1.head? = rest.head? := by
      cases rest with
      | nil => simp only [next, uncomment, List.head?_nil]
      | cons c rest =>
        have hc : ¬ OpensComment c rest.head? := fun h => hopens ⟨rfl, .inl (congrArg some h.1)⟩
        simp only [next, uncomment_of_not_opens hc, List.head?_cons]
    exact hopens ⟨rfl, hhead ▸ hopened⟩

/-- **Removing comments twice** is removing them once. -/
theorem uncomment_uncomment (inComment : Bool) (text : Bytes) :
    uncomment false (uncomment inComment text).1 = ((uncomment inComment text).1, false) :=
  uncomment_of_uncommented (uncommented_uncomment inComment text)

/-! ## Lines -/

/-- Behind a line comes the next. -/
theorem afterLine_append {line : Bytes} (hline : line.IsLine) (more : Bytes) :
    afterLine (line ++ more) = more := by
  obtain ⟨body, hbody, rfl⟩ := hline
  have hnone : ∀ b ∈ body, (b != Byte.newline) = true := fun b hb =>
    bne_iff_ne.mpr fun h => hbody (h ▸ hb)
  rw [afterLine, List.append_assoc, List.dropWhile_append_of_pos hnone]
  rfl

end Bytes

namespace Sight

open Bytes

variable {inComment : Bool} {passed : Nat} {b : Byte} {line : Bytes}

/-- How far a byte lies behind bytes that were passed over to see it. -/
theorem sub_of_reach {reach : Nat} (n : Nat)
    (hsight : ofRest inComment (passed + n) line = .byte b reach) :
    reach - passed = reach - (passed + n) + n := by
  have := (reach_ofRest hsight).1
  omega

/-- A byte that is seen of a line is left of it, and the pass goes on
behind that byte. -/
theorem uncomment_of_byte {reach : Nat} (more : Bytes)
    (hsight : ofRest inComment passed line = .byte b reach) (hline : line.IsLine) :
    uncomment inComment (line ++ more) =
      let next := uncomment false (line.drop (reach - passed) ++ more)
      (b :: next.1, next.2) := by
  fun_induction ofRest inComment passed line with
  | case1 | case2 | case5 | case7 => cases hsight
  | case3 passed c d rest hclose ih =>
    obtain ⟨rfl, rfl⟩ := hclose
    rw [List.cons_append, List.cons_append, uncomment_close, sub_of_reach 2 hsight]
    exact ih hsight ((hline.of_cons (by decide)).of_cons (by decide))
  | case4 passed c d rest hclose ih =>
    rw [List.cons_append, List.cons_append, uncomment_inside hclose, sub_of_reach 1 hsight]
    exact ih hsight hline.tail
  | case6 passed c =>
    cases hsight
    have hopens : ¬ OpensComment b more.head? := by
      rw [hline.eq_newline]
      rintro ⟨hslash, -⟩
      cases hslash
    rw [Nat.add_sub_cancel_left]
    exact uncomment_of_not_opens hopens
  | case8 passed c d rest hnot hopen ih =>
    obtain ⟨rfl, rfl⟩ := hopen
    rw [List.cons_append, List.cons_append, uncomment_open, sub_of_reach 2 hsight]
    exact ih hsight ((hline.of_cons (by decide)).of_cons (by decide))
  | case9 passed c d rest hnot hblock =>
    cases hsight
    have hopens : ¬ OpensComment b (d :: rest ++ more).head? := by
      rintro ⟨hslash, hsecond | hsecond⟩
      · exact hnot ⟨hslash, Option.some.inj hsecond⟩
      · exact hblock ⟨hslash, Option.some.inj hsecond⟩
    rw [Nat.add_sub_cancel_left]
    exact uncomment_of_not_opens hopens

/-- Where no byte of a line is seen, none is left of it, and the pass goes
on behind it. -/
theorem uncomment_of_hidden {isOpen : Bool} (more : Bytes)
    (hsight : ofRest inComment passed line = .hidden isOpen) (hline : line.IsLine) :
    uncomment inComment (line ++ more) = uncomment isOpen more := by
  fun_induction ofRest inComment passed line with
  | case1 => exact absurd hline not_isLine_nil
  | case2 passed c =>
    cases hsight
    rw [hline.eq_newline]
    exact uncomment_of_not_closes fun h => absurd h.1 (by decide)
  | case3 passed c d rest hclose ih =>
    obtain ⟨rfl, rfl⟩ := hclose
    rw [List.cons_append, List.cons_append, uncomment_close]
    exact ih hsight (hline.tail.of_cons (by decide))
  | case4 passed c d rest hclose ih =>
    rw [List.cons_append, List.cons_append, uncomment_inside hclose]
    exact ih hsight hline.tail
  | case5 | case6 | case9 => cases hsight
  | case7 passed c d rest hopen =>
    obtain ⟨rfl, rfl⟩ := hopen
    cases hsight
    have hafter := afterLine_append hline.tail more
    rw [List.cons_append] at hafter
    rw [List.cons_append, List.cons_append, uncomment_slashes, hafter]
  | case8 passed c d rest hnot hopen ih =>
    obtain ⟨rfl, rfl⟩ := hopen
    rw [List.cons_append, List.cons_append, uncomment_open]
    exact ih hsight (hline.tail.of_cons (by decide))

/-- A line does not end without its newline being seen or hidden. -/
theorem ofRest_ne_exhausted (hline : line.IsLine) : ofRest inComment passed line ≠ .exhausted := by
  fun_induction ofRest inComment passed line with
  | case1 | case2 | case6 | case7 | case9 => exact Sight.noConfusion
  | case3 passed c d rest hclose ih => exact ih (hline.tail.of_cons (hclose.2 ▸ by decide))
  | case4 passed c d rest hclose ih => exact ih hline.tail
  | case5 => exact absurd hline not_isLine_nil
  | case8 passed c d rest hnot hopen ih => exact ih (hline.tail.of_cons (hopen.2 ▸ by decide))

end Sight

namespace Head

open Bytes

/-! ## Reading a line to its end -/

/-- The head at the end of its line, after every byte that is shown was
read. -/
def drained (h : Head) : Head :=
  match _hnext : h.next.1 with
  | some _ => h.next.2.drained
  | none => h.next.2
  termination_by h.ahead.length
  decreasing_by exact length_ahead_next _hnext

theorem drained_of_some {h : Head} {b : Byte} (hnext : h.next.1 = some b) :
    h.drained = h.next.2.drained := by
  rw [drained]
  split
  · rfl
  · rename_i hnone
    rw [hnext] at hnone
    cases hnone

theorem drained_of_none {h : Head} (hnext : h.next.1 = none) : h.drained = h.next.2 := by
  rw [drained]
  split
  · rename_i hsome
    rw [hnext] at hsome
    cases hsome
  · rfl

/-- A byte that is read is left by the pass, which goes on where the head
does, on the rest of the line. -/
theorem uncomment_of_next_some {h : Head} {b : Byte} (more : Bytes) (hnext : h.next.1 = some b)
    (hline : h.ahead.IsLine ∨ h.ahead = []) :
    uncomment h.inComment (h.ahead ++ more) =
        (b :: (uncomment h.next.2.inComment (h.next.2.ahead ++ more)).1,
          (uncomment h.next.2.inComment (h.next.2.ahead ++ more)).2) ∧
      (h.next.2.ahead.IsLine ∨ h.next.2.ahead = []) := by
  have hline : h.ahead.IsLine := hline.resolve_right fun hnil => by
    rw [next_of_ahead_nil hnil] at hnext
    cases hnext
  cases hsight : Sight.ofRest h.inComment 0 h.ahead with
  | byte c reach =>
    simp only [next, hsight] at hnext ⊢
    cases hnext
    exact ⟨Sight.uncomment_of_byte more hsight hline, hline.drop reach⟩
  | exhausted => simp [next, hsight] at hnext
  | hidden isOpen => simp [next, hsight] at hnext

/-- The end of the line neither opens a comment nor closes one. -/
theorem inComment_next_of_ahead_nil {h : Head} (hahead : h.ahead = []) :
    h.next.2.inComment = h.inComment := by
  cases hcomment : h.inComment <;> simp [next, hahead, hcomment, Sight.ofRest]

/-- Where none is read, the pass leaves none of the line. -/
theorem uncomment_of_next_none {h : Head} (more : Bytes) (hnext : h.next.1 = none)
    (hline : h.ahead.IsLine ∨ h.ahead = []) :
    uncomment h.inComment (h.ahead ++ more) = uncomment h.next.2.inComment more := by
  rcases hline with hline | hnil
  · cases hsight : Sight.ofRest h.inComment 0 h.ahead with
    | byte b reach => simp [next, hsight] at hnext
    | exhausted => exact absurd hsight (Sight.ofRest_ne_exhausted hline)
    | hidden isOpen =>
      simp only [next, hsight]
      exact Sight.uncomment_of_hidden more hsight hline
  · rw [hnil, inComment_next_of_ahead_nil hnil, List.nil_append]

/-- **Reading a line to its end** shows what the pass leaves of the line,
and the head is then in a block comment if the pass is, whatever comes
after the line. -/
theorem uncomment_line {h : Head} (more : Bytes) (hline : h.ahead.IsLine ∨ h.ahead = []) :
    uncomment h.inComment (h.ahead ++ more) =
      (h.visible ++ (uncomment h.drained.inComment more).1,
        (uncomment h.drained.inComment more).2) := by
  fun_induction visible h with
  | case1 h b hnext ih =>
    obtain ⟨hstep, hrest⟩ := uncomment_of_next_some more hnext hline
    rw [hstep, ih hrest, drained_of_some hnext, List.cons_append]
  | case2 h hnext =>
    rw [uncomment_of_next_none more hnext hline, drained_of_none hnext, List.nil_append]

end Head

end BasicLexer
