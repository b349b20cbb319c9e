import BasicLexer.Proofs.Reading.Orderly

/-!
# Reading — what is visible ahead

Reading on from a head shows the bytes that no comment hides, one after
another: `Head.visible`. The loops over single reads are runs of these
bytes. Skipping blanks drops a run of them, and a word is the longest run
of word bytes, admitted if there is room for it
(`Word.tailFrom_of_le`, `Word.tailFrom_of_gt`).
-/

namespace BasicLexer

namespace Head

/-- The bytes that reading on from a head shows. -/
def visible (h : Head) : Bytes :=
  match _hnext : h.next.1 with
  | some b => b :: h.next.2.visible
  | none => []
  termination_by h.ahead.length
  decreasing_by exact length_ahead_next _hnext

theorem visible_of_some {h : Head} {b : Byte} (hnext : h.next.1 = some b) :
    h.visible = b :: h.next.2.visible := by
  rw [visible]
  split
  · rename_i c hc
    rw [hnext] at hc
    cases hc
    rfl
  · rename_i hc
    rw [hnext] at hc
    cases hc

theorem visible_of_none {h : Head} (hnext : h.next.1 = none) : h.visible = [] := by
  rw [visible]
  split
  · rename_i c hc
    rw [hnext] at hc
    cases hc
  · rfl

theorem tokenStart_next (h : Head) : h.next.2.tokenStart = h.tokenStart := by
  unfold next
  split <;> rfl

theorem tokenStart_retract (h : Head) : h.retract.tokenStart = h.tokenStart := by
  unfold retract
  split <;> rfl

end Head

namespace Reader

/-! ## Skipping blanks -/

/-- What is visible from the byte found on is what is visible with the
blanks dropped. -/
theorem dropWhile_of_skipBlanksFrom (h : Head) :
    h.visible.dropWhile Byte.isBlank =
      match (skipBlanksFrom h).1 with
      | some b => b :: (skipBlanksFrom h).2.visible
      | none => [] := by
  fun_induction skipBlanksFrom h with
  | case1 h b hnext hblank ih =>
    rw [Head.visible_of_some hnext, List.dropWhile_cons_of_pos hblank, ih]
  | case2 h b hnext hblank =>
    rw [Head.visible_of_some hnext, List.dropWhile_cons_of_neg hblank]
  | case3 h hnext => rw [Head.visible_of_none hnext, List.dropWhile_nil]

end Reader

/-! ## Words -/

namespace Word

open Reader

/-- The word bytes visible from a head on. -/
def run (h : Head) : Bytes := h.visible.takeWhile Byte.isWord

theorem continues_eq_some {b c : Byte} : continues b = some c ↔ b.isWord = true ∧ b = c := by
  simp only [continues]
  split <;> simp_all

/-- Where a word goes on, the run is the byte read and the run after
it. -/
theorem run_of_some {h h' : Head} {b : Byte} (hstep : nextIf continues h = .ok (some b) h') :
    run h = b :: run h' := by
  rw [nextIf_apply, EStateM.Result.ok.injEq] at hstep
  obtain ⟨hbind, rfl⟩ := hstep
  obtain ⟨c, hnext, hcontinues⟩ := Option.bind_eq_some_iff.mp hbind
  obtain ⟨hword, rfl⟩ := continues_eq_some.mp hcontinues
  rw [hbind, Option.isSome_some, if_pos rfl, run, Head.visible_of_some hnext,
    List.takeWhile_cons_of_pos hword, run]

/-- Where it ends, the run is empty. -/
theorem run_of_none {h h' : Head} (hstep : nextIf continues h = .ok none h') : run h = [] := by
  rw [nextIf_apply, EStateM.Result.ok.injEq] at hstep
  cases hnext : h.next.1 with
  | none => rw [run, Head.visible_of_none hnext, List.takeWhile_nil]
  | some b =>
    -- a word byte would have been accepted
    have hword : ¬ b.isWord = true := by
      intro hword
      have hcontinues := continues_eq_some.mpr ⟨hword, rfl⟩
      rw [hnext, Option.bind_some, hcontinues] at hstep
      cases hstep.1
    rw [run, Head.visible_of_some hnext, List.takeWhile_cons_of_neg hword]

/-- A run there is room for is read to its end. -/
theorem tailFrom_of_le (word : Bytes) {room : Nat} {h : Head} (hroom : (run h).length ≤ room) :
    ∃ h', tailFrom word room h = .ok (word.reverse ++ run h) h' := by
  -- a byte read off the run takes one of the room, so the bound goes along
  fun_induction tailFrom word room h with
  | case1 word h b h₁ hstep =>
    rw [run_of_some hstep] at hroom
    simp at hroom
  | case2 word h b h₁ hstep room ih =>
    rw [run_of_some hstep] at hroom ⊢
    obtain ⟨h', htail⟩ := ih (by simpa using hroom)
    refine ⟨h', ?_⟩
    rw [htail, List.reverse_cons, List.append_assoc, List.singleton_append]
  | case3 word room h h₁ hstep =>
    rw [run_of_none hstep, List.append_nil]
    exact ⟨h₁, rfl⟩
  | case4 word room h failure h₁ hstep => exact absurd hstep nextIf_ne_error

/-- A longer run is an error, wherever it ends. -/
theorem tailFrom_of_gt (word : Bytes) {room : Nat} {h : Head} (hroom : room < (run h).length) :
    ∃ h', tailFrom word room h = .error (.reported .identifierTooLong) h' := by
  fun_induction tailFrom word room h with
  | case1 word h b h₁ hstep => exact ⟨h₁, rfl⟩
  | case2 word h b h₁ hstep room ih =>
    rw [run_of_some hstep] at hroom
    exact ih (by simpa using hroom)
  | case3 word room h h₁ hstep =>
    rw [run_of_none hstep] at hroom
    simp at hroom
  | case4 word room h failure h₁ hstep => exact absurd hstep nextIf_ne_error

end Word

end BasicLexer
