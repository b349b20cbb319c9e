import BasicLexer.Proofs.Reading.Conformity
import BasicLexer.Proofs.Reading.WholeText

/-!
# Reading — what a line leaves open

Whether the rest of a line leaves a block comment open can be told from
any head on it: `Head.leavesOpen`. Readers that see the line past its
comments, and that is all but those of literals in quotes, come to heads of
which the same is to be told (`Reader.KeepsOpen`), and so does a token that
is no such literal (`Lexeme.leavesOpen_read`).
-/

namespace BasicLexer

namespace Head

/-! ## From a head -/

/-- Whether the rest of the line leaves a block comment open. -/
def leavesOpen (h : Head) : Bool := h.drained.inComment

/-- At the end of the line the head is in the comment or it is not. -/
theorem leavesOpen_of_ahead_nil {h : Head} (hahead : h.ahead = []) :
    h.leavesOpen = h.inComment := by
  rw [leavesOpen, drained_of_none (next_of_ahead_nil hahead), inComment_next_of_ahead_nil hahead]

theorem leavesOpen_next (h : Head) : h.next.2.leavesOpen = h.leavesOpen := by
  cases hnext : h.next.1 with
  | some b => rw [leavesOpen, leavesOpen, drained_of_some hnext]
  | none =>
    rw [leavesOpen_of_ahead_nil (ahead_next_of_none hnext), leavesOpen, drained_of_none hnext]

/-- A byte that was read and taken back makes no difference. -/
theorem leavesOpen_retract_next (h : Head) : h.next.2.retract.leavesOpen = h.leavesOpen := by
  cases hnext : h.next.1 with
  | some b => rw [← leavesOpen_next, next_retract_next hnext, leavesOpen_next]
  | none =>
    have hlast := lastRead_next h
    rw [hnext] at hlast
    rw [retract_of_atEnd hlast, leavesOpen_next]

/-- Nor does what is noted of a token. -/
theorem leavesOpen_noted (h : Head) (start : Nat) :
    leavesOpen { h with tokenStart := start } = h.leavesOpen := by
  fun_induction drained h with
  | case1 h b hnext ih =>
    have hnoted := next_noted h start
    rw [← leavesOpen_next, hnoted, ih, leavesOpen_next]
  | case2 h hnext =>
    have hnoted := next_noted h start
    have hnone : (next { h with tokenStart := start }).1 = none := by rw [hnoted, hnext]
    rw [leavesOpen, drained_of_none hnone, hnoted, leavesOpen, drained_of_none hnext]

end Head

namespace Reader

/-! ## Readers that see past comments -/

variable {α β : Type}

/-- A reader that sees the line past its comments alone: from the head it
comes to, the line leaves open what it did before. -/
def KeepsOpen (x : Reader α) : Prop := ∀ h a h', x h = .ok a h' → h'.leavesOpen = h.leavesOpen

namespace KeepsOpen

theorem pure (a : α) : KeepsOpen (pure a : Reader α) := by
  rintro h _ _ ⟨⟩
  rfl

theorem fail (cause : Cause) : KeepsOpen (Reader.fail cause : Reader α) := by
  rintro h _ _ ⟨⟩

theorem bind {x : Reader α} {f : α → Reader β} (hx : x.KeepsOpen) (hf : ∀ a, (f a).KeepsOpen) :
    (x >>= f).KeepsOpen := by
  intro h b h'' hrun
  obtain ⟨a, h', hfirst, hrest⟩ := bind_eq_ok hrun
  exact (hf a h' b h'' hrest).trans (hx h a h' hfirst)

theorem nextIf (accepts : Byte → Option α) : KeepsOpen (Reader.nextIf accepts) := by
  intro h a h' hrun
  rw [nextIf_apply] at hrun
  cases hrun
  split
  · exact h.leavesOpen_next
  · exact h.leavesOpen_retract_next

end KeepsOpen

theorem leavesOpen_skipBlanksFrom (h : Head) : (skipBlanksFrom h).2.leavesOpen = h.leavesOpen := by
  fun_induction skipBlanksFrom h with
  | case1 h b hnext hblank ih => rw [ih, h.leavesOpen_next]
  | case2 h b hnext hblank | case3 h hnext => exact h.leavesOpen_next

theorem KeepsOpen.skipBlanks : KeepsOpen Reader.skipBlanks := by
  rintro h _ _ ⟨⟩
  exact leavesOpen_skipBlanksFrom h

end Reader

open Reader Grammar

namespace Word

theorem keepsOpen_read (options : Options) (first : Byte) : (read options first).KeepsOpen := by
  intro h a h' hrun
  unfold read at hrun
  generalize [first] = word at hrun
  generalize options.maxToken - 1 = room at hrun
  fun_induction tailFrom word room h with
  | case1 => cases hrun
  | case2 word h b h₁ hstep room ih => exact (ih hrun).trans (KeepsOpen.nextIf _ _ _ _ hstep)
  | case3 word room h h₁ hstep =>
    cases hrun
    exact KeepsOpen.nextIf _ _ _ _ hstep
  | case4 => cases hrun

theorem keepsOpen_readSecond (options : Options) (first : Keyword) :
    (readSecond options first).KeepsOpen := by
  refine .bind .skipBlanks fun found => ?_
  cases found with
  | none => exact .pure _
  | some b =>
    by_cases hword : b.isWord = true
    · simp only [hword, if_true]
      exact .bind (keepsOpen_read options b) fun _ => .pure _
    · simp only [hword]
      exact .pure _

theorem keepsOpen_readCompound (options : Options) (first : Keyword) :
    (readCompound options first).KeepsOpen := by
  intro h a h' hrun
  rw [readCompound_apply] at hrun
  rcases hsecond : readSecond options first h with ⟨_ | found, h₁⟩ | ⟨failure, h₁⟩ <;>
    rw [hsecond] at hrun <;> cases hrun
  -- a miss goes back to the head that was marked
  · rfl
  · exact keepsOpen_readSecond options first _ _ _ hsecond

theorem keepsOpen_readToken (options : Options) (start : Nat) (first : Byte) :
    (readToken options start first).KeepsOpen := by
  refine .bind (keepsOpen_read options first) fun word => ?_
  cases keyword? word with
  | none => exact .pure _
  | some k =>
    by_cases hopens : k.opensCompound = true
    · simp only [hopens, if_true]
      refine .bind (keepsOpen_readCompound options k) fun found => ?_
      cases found <;> exact .pure _
    · simp only [hopens]
      exact .pure _

end Word

namespace Numeral

theorem keepsOpen_digits (radix : Radix) (first : Bytes) : (digits radix first).KeepsOpen := by
  intro h a h' hrun
  unfold digits at hrun
  generalize first.reverse = taken at hrun
  fun_induction digitsFrom radix taken h with
  | case1 taken h b h₁ hstep ih => exact (ih hrun).trans (KeepsOpen.nextIf _ _ _ _ hstep)
  | case2 taken h h₁ hstep =>
    cases hrun
    exact KeepsOpen.nextIf _ _ _ _ hstep
  | case3 => cases hrun

theorem keepsOpen_read (options : Options) (radix : Radix) (first : Bytes) :
    (read options radix first).KeepsOpen := by
  refine .bind (keepsOpen_digits radix first) fun digits => ?_
  dsimp only
  split
  · exact .fail _
  · exact .pure _

end Numeral

namespace Lexeme

theorem keepsOpen_readOperator (start : Nat) (b : Byte) : (readOperator start b).KeepsOpen := by
  refine .bind (.nextIf _) fun found => ?_
  cases found <;> exact .pure _

theorem keepsOpen_readMarker (b : Byte) : (readMarker b).KeepsOpen := by
  unfold readMarker
  split
  · exact .nextIf _
  · exact .pure _

theorem keepsOpen_readNumber (options : Options) (start : Nat) (b : Byte) :
    (readNumber options start b).KeepsOpen :=
  .bind (keepsOpen_readMarker b) fun _ => .bind (Numeral.keepsOpen_read _ _ _) fun _ => .pure _

theorem keepsOpen_readFrom (options : Options) (start : Nat) {b : Byte}
    (hdouble : b ≠ Byte.doubleQuote) (hsingle : b ≠ Byte.singleQuote) :
    (readFrom options start b).KeepsOpen := by
  rw [readFrom, if_neg hdouble, if_neg hsingle]
  split
  · exact keepsOpen_readOperator start b
  split
  · exact keepsOpen_readNumber options start b
  split
  · exact Word.keepsOpen_readToken options start b
  · exact .pure _

/-- **A token that is no literal in quotes** changes nothing of what the
line leaves open. -/
theorem leavesOpen_read {options : Options} {h h' : Head} {t : Token}
    (hquotes : ∀ b ∈ h.visible, b ≠ Byte.doubleQuote ∧ b ≠ Byte.singleQuote)
    (hread : read options h = .ok t h') : h'.leavesOpen = h.leavesOpen := by
  have hskipped := leavesOpen_skipBlanksFrom h
  have hshown := dropWhile_sights h
  rw [read_eq] at hread
  rcases hskip : skipBlanksFrom h with ⟨_ | b, h₁⟩ <;> rw [hskip] at hread hskipped hshown
  · cases hread
    rw [Head.leavesOpen_noted, hskipped]
  · have hvisible : b ∈ h.visible := by
      have hsuffix := List.dropWhile_suffix (fun sight : Byte × Nat => sight.1.isBlank)
        (l := h.sights)
      rw [hshown] at hsuffix
      rw [← h.bytes_sights]
      exact List.mem_map_of_mem (hsuffix.subset List.mem_cons_self)
    obtain ⟨hdouble, hsingle⟩ := hquotes b hvisible
    rw [keepsOpen_readFrom options _ hdouble hsingle _ _ _ hread, Head.leavesOpen_noted, hskipped]

end Lexeme

end BasicLexer
