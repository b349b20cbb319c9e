import BasicLexer.Proofs.Reading.Sights

/-!
# Reading — bytes that hold no comment

Bytes without two slashes in a row and without a slash before an asterisk
hold no comment, and reading shows them as they are, column by column
(`Head.sights_of_uncommented`). What reading shows of any line is such
bytes (`Head.uncommented_visible`): a slash is shown only before a byte
that makes no opener with it, and that byte is shown next.
-/

namespace BasicLexer

namespace Bytes

/-- Bytes hold no opener of a comment. -/
def Uncommented (bytes : Bytes) : Prop :=
  ¬ [Byte.slash, Byte.slash] <:+: bytes ∧ ¬ [Byte.slash, Byte.asterisk] <:+: bytes

instance (bytes : Bytes) : Decidable bytes.Uncommented := inferInstanceAs (Decidable (_ ∧ _))

theorem uncommented_nil : Uncommented [] := by decide

/-- Whether a byte opens a comment with the one after it. -/
def OpensComment (b : Byte) (next : Option Byte) : Prop :=
  b = Byte.slash ∧ (next = some Byte.slash ∨ next = some Byte.asterisk)

instance (b : Byte) (next : Option Byte) : Decidable (OpensComment b next) :=
  inferInstanceAs (Decidable (_ ∧ _))

theorem uncommented_cons {b : Byte} {rest : Bytes} :
    Uncommented (b :: rest) ↔ ¬ OpensComment b rest.head? ∧ Uncommented rest := by
  have hpair (c : Byte) : [Byte.slash, c] <+: b :: rest ↔ b = Byte.slash ∧ rest.head? = some c := by
    cases rest <;> simp [List.cons_prefix_cons, eq_comm]
  simp only [Uncommented, List.infix_cons_iff, hpair, OpensComment, and_or_left, not_or]
  exact and_and_and_comm

end Bytes

namespace Sight

/-- A byte is seen at once exactly if it opens no comment. -/
theorem ofRest_cons_iff {b : Byte} {after : Bytes} {passed : Nat} :
    ofRest false passed (b :: after) = .byte b (passed + 1) ↔
      ¬ Bytes.OpensComment b after.head? := by
  rcases after with _ | ⟨c, rest⟩
  · simp [ofRest, Bytes.OpensComment]
  by_cases hline : b = Byte.slash ∧ c = Byte.slash
  · simp [ofRest, Bytes.OpensComment, hline]
  by_cases hblock : b = Byte.slash ∧ c = Byte.asterisk
  · have hopens : Bytes.OpensComment b (c :: rest).head? :=
      ⟨hblock.1, .inr (congrArg some hblock.2)⟩
    rw [ofRest, if_neg hline, if_pos hblock]
    -- what is seen past the opener lies further on
    refine iff_of_false (fun hsight => ?_) (not_not_intro hopens)
    have hreach := reach_ofRest hsight
    omega
  · have hnone : ¬ Bytes.OpensComment b (c :: rest).head? := by
      rintro ⟨hb, hc | hc⟩
      · exact hline ⟨hb, Option.some.inj hc⟩
      · exact hblock ⟨hb, Option.some.inj hc⟩
    rw [ofRest, if_neg hline, if_neg hblock]
    exact iff_of_true rfl hnone

end Sight

namespace Head

open Bytes

/-- Outside a comment, a byte that opens none is the next one. -/
theorem next_of_not_opens {h : Head} {b : Byte} {after : Bytes} (hcomment : h.inComment = false)
    (hahead : h.ahead = b :: after) (hopens : ¬ OpensComment b after.head?) :
    h.next = (some b, { h.forward 1 with inComment := false, lastRead := .consumed }) := by
  rw [next, hcomment, hahead, Sight.ofRest_cons_iff.mpr hopens]

/-- **Bytes without comments are shown as they are.** -/
theorem sights_of_uncommented {h : Head} (hcomment : h.inComment = false)
    (huncommented : h.ahead.Uncommented) : h.sights = h.ahead.zipIdx h.column := by
  induction hahead : h.ahead generalizing h with
  | nil => rw [sights_of_none (next_of_ahead_nil hahead), List.zipIdx_nil]
  | cons b rest ih =>
    obtain ⟨hopens, hrest⟩ := uncommented_cons.mp (hahead ▸ huncommented)
    have hnext := next_of_not_opens hcomment hahead hopens
    have hmoved : h.next.2.ahead = rest := by simp [hnext, forward, hahead]
    have hcolumn : h.next.2.column = h.column + 1 := by rw [hnext]; rfl
    have hshown := ih (h := h.next.2) (by rw [hnext]) (hmoved ▸ hrest) hmoved
    rw [sights_of_some (by rw [hnext]), hshown, hcolumn, Nat.add_sub_cancel, List.zipIdx_cons]

/-- The first byte that is shown is the next one. -/
theorem head?_visible (h : Head) : h.visible.head? = h.next.1 := by
  cases hnext : h.next.1 with
  | some b => rw [visible_of_some hnext, List.head?_cons]
  | none => rw [visible_of_none hnext, List.head?_nil]

/-- **What is shown holds no comment.** -/
theorem uncommented_visible (h : Head) : h.visible.Uncommented := by
  fun_induction visible h with
  | case1 h b hnext ih =>
    obtain ⟨skipped, after, -, hfrom, hmoved⟩ := next_of_some hnext
    have hopens := Sight.ofRest_cons_iff.mp (hfrom 0)
    refine uncommented_cons.mpr ⟨?_, ih⟩
    rintro ⟨rfl, hslash⟩
    rw [head?_visible] at hslash
    match hafter : after with
    | [] =>
      have hnone : h.next.2.next.1 = none := next_of_ahead_nil (by rw [hmoved])
      rw [hnone] at hslash
      rcases hslash with hslash | hslash <;> cases hslash
    | c :: rest =>
      -- the byte after the slash is no slash itself, so it is shown
      have hc : ¬ OpensComment c rest.head? := by
        rintro ⟨rfl, -⟩
        exact hopens ⟨rfl, .inl rfl⟩
      rw [next_of_not_opens (h := h.next.2) (by rw [hmoved]) (by rw [hmoved]) hc] at hslash
      exact hopens ⟨rfl, hslash⟩
  | case2 h hnext => exact uncommented_nil

end Head

end BasicLexer
