import BasicLexer.Lexeme

/-!
# Reading — readers keep to their line

A reader moves its head along the line and never changes the line
itself. `Head.Along` says what a head has in common with the head it came
from; `Reader.Orderly` says that a reader, however it ends, leaves its head
along the line and breaks no contract. Every reader of tokens is orderly
(`Lexeme.orderly_read`), so scanning never takes back a byte it did not
just read.
-/

namespace BasicLexer

namespace Head

/-! ## Heads along one line -/

/-- A head is placed if its column counts the bytes behind it. A head
whose line was lost under it need not be. -/
def Placed (h : Head) : Prop := h.column = h.behind.length

/-- What a reader keeps of the head it starts from: the line, the place
in it, and a token start within it. -/
structure Along (h h' : Head) : Prop where
  line : h'.line = h.line
  placed : h.Placed → h'.Placed
  tokenStart : h.Placed → h.tokenStart ≤ h.lineLength → h'.tokenStart ≤ h'.lineLength

theorem length_line (h : Head) : h.line.length = h.lineLength := by
  simp [line, lineLength]

/-- A placed head stands within its line. -/
theorem Placed.column_le {h : Head} (hplaced : h.Placed) : h.column ≤ h.lineLength := by
  unfold Placed at hplaced
  unfold lineLength
  omega

/-- What is ahead of a placed head is the line from its column on. -/
theorem Placed.ahead_eq {h : Head} (hplaced : h.Placed) : h.ahead = h.line.drop h.column := by
  have hbehind : h.behind.reverse.length = h.column := by rw [List.length_reverse, hplaced]
  rw [line, ← hbehind, List.drop_left]

namespace Along

theorem refl (h : Head) : h.Along h := ⟨rfl, id, fun _ hle => hle⟩

theorem trans {h h' h'' : Head} (h₁ : h.Along h') (h₂ : h'.Along h'') : h.Along h'' where
  line := h₂.line.trans h₁.line
  placed hp := h₂.placed (h₁.placed hp)
  tokenStart hp hle := h₂.tokenStart (h₁.placed hp) (h₁.tokenStart hp hle)

theorem lineLength {h h' : Head} (halong : h.Along h') : h'.lineLength = h.lineLength := by
  rw [← length_line, ← length_line, halong.line]

/-- Where the token start stays what it was, the line and the place are
all there is to check. -/
theorem of_line {h h' : Head} (hline : h'.line = h.line) (hplaced : h.Placed → h'.Placed)
    (hstart : h'.tokenStart = h.tokenStart) : h.Along h' where
  line := hline
  placed := hplaced
  tokenStart _ hle := by
    rw [hstart, ← length_line, hline, length_line]
    exact hle

end Along

/-! ## The moves of a head -/

theorem line_forward (h : Head) (n : Nat) : (h.forward n).line = h.line := by
  simp [line, forward, List.reverseAux_eq]

/-- Bytes that are passed over are behind the head, and it is before those
that come after them. -/
theorem forward_of_append {h : Head} {passed after : Bytes} (hahead : h.ahead = passed ++ after) :
    h.forward passed.length =
      { h with
        behind := passed.reverse ++ h.behind
        ahead := after
        column := h.column + passed.length } := by
  rw [forward, hahead, List.take_left, List.drop_left, List.reverseAux_eq]

theorem placed_forward {h : Head} {n : Nat} (hn : n ≤ h.ahead.length) (hplaced : h.Placed) :
    (h.forward n).Placed := by
  unfold Placed at *
  simp only [forward, List.reverseAux_eq, List.length_append, List.length_reverse,
    List.length_take]
  omega

/-- Passing over bytes that are there leads along the line. -/
theorem along_forward {h : Head} {n : Nat} (hn : n ≤ h.ahead.length) : h.Along (h.forward n) :=
  .of_line (line_forward h n) (placed_forward hn) rfl

/-- So does passing over all of them, wherever the head stood. -/
theorem along_toEnd (h : Head) : h.Along h.toEnd := by
  refine .of_line (line_forward h _) (fun _ => ?_) rfl
  -- the column is set to the length of the line, so nothing is asked of the old one
  simp [Placed, toEnd, forward, lineLength, List.reverseAux_eq, Nat.add_comm]

/-- What the head notes of the last read and of comments is no matter of
its place. -/
theorem Along.note {h h' : Head} (halong : h.Along h') (inComment : Bool) (last : LastRead) :
    h.Along { h' with inComment, lastRead := last } :=
  ⟨halong.line, halong.placed, halong.tokenStart⟩

theorem along_read (h : Head) : h.Along h.read.2 := by
  unfold read
  split
  · exact (Along.refl h).note h.inComment .atEnd
  · rename_i b rest hahead
    have hone : 1 ≤ h.ahead.length := by rw [hahead]; simp
    exact (along_forward hone).note h.inComment .consumed

theorem along_next (h : Head) : h.Along h.next.2 := by
  unfold next
  split
  · rename_i b reach hsight
    have hreach := (Sight.reach_ofRest hsight).2
    rw [Nat.zero_add] at hreach
    exact (along_forward hreach).note false .consumed
  · exact (along_forward (Nat.le_refl _)).note false .atEnd
  · rename_i isOpen _
    exact (along_toEnd h).note isOpen .atEnd

theorem along_retract (h : Head) : h.Along h.retract := by
  unfold retract
  split
  · refine .of_line ?_ (fun hplaced => ?_) rfl
    · cases hbehind : h.behind <;> simp [line, hbehind]
    · unfold Placed at *
      simp only [List.length_tail]
      omega
  · exact Along.refl h

end Head

namespace Reader

/-! ## Orderly readers -/

variable {α β : Type}

/-- A run that started from a head leads along the line if it ends there,
whether in a value or a failure, and breaks no contract. -/
def LeadsAlong (h : Head) : EStateM.Result (Failure Cause) Head α → Prop
  | .ok _ h' => h.Along h'
  | .error (.reported _) h' => h.Along h'
  | .error (.breach _) _ => False

theorem LeadsAlong.trans {h h' : Head} {run : EStateM.Result (Failure Cause) Head α}
    (halong : h.Along h') (hrun : LeadsAlong h' run) : LeadsAlong h run := by
  match run with
  | .ok _ h'' => exact Head.Along.trans halong hrun
  | .error (.reported _) h'' => exact Head.Along.trans halong hrun
  | .error (.breach _) _ => exact hrun

/-- A reader is orderly if each of its runs leads along the line. -/
def Orderly (x : Reader α) : Prop := ∀ h, LeadsAlong h (x h)

namespace Orderly

theorem along_of_ok {x : Reader α} (hx : x.Orderly) {h h' : Head} {a : α}
    (hrun : x h = .ok a h') : h.Along h' := by
  have hleads := hx h
  rwa [hrun] at hleads

theorem along_of_reported {x : Reader α} (hx : x.Orderly) {h h' : Head} {cause : Cause}
    (hrun : x h = .error (.reported cause) h') : h.Along h' := by
  have hleads := hx h
  rwa [hrun] at hleads

theorem not_breach {x : Reader α} (hx : x.Orderly) {h h' : Head} {breach : Breach} :
    x h ≠ .error (.breach breach) h' := by
  intro hrun
  have hleads := hx h
  rwa [hrun] at hleads

/-- A reader that always gives a value is orderly if it keeps to the
line. -/
theorem of_ok {x : Reader α} (value : Head → α) (move : Head → Head)
    (hx : ∀ h, x h = .ok (value h) (move h)) (hmove : ∀ h, Head.Along h (move h)) :
    x.Orderly := by
  intro h
  rw [hx h]
  exact hmove h

theorem pure (a : α) : Orderly (pure a : Reader α) := fun h => Head.Along.refl h

theorem fail (cause : Cause) : Orderly (Reader.fail cause : Reader α) :=
  fun h => Head.Along.refl h

theorem bind {x : Reader α} {f : α → Reader β} (hx : x.Orderly) (hf : ∀ a, (f a).Orderly) :
    (x >>= f).Orderly := by
  intro h
  have hhead := hx h
  cases hrun : x h with
  | ok a h' =>
    rw [hrun] at hhead
    rw [bind_of_ok hrun]
    exact LeadsAlong.trans hhead (hf a h')
  | error failure h' =>
    -- the rest is not run, and the head is where the first part failed
    rw [hrun] at hhead
    rw [bind_of_error hrun]
    cases failure <;> exact hhead

end Orderly

theorem orderly_read : Orderly read :=
  .of_ok (fun h => h.read.1) (fun h => h.read.2) (fun _ => rfl) Head.along_read

theorem orderly_next : Orderly next :=
  .of_ok (fun h => h.next.1) (fun h => h.next.2) (fun _ => rfl) Head.along_next

theorem along_nextIf (accepts : Byte → Option α) (h : Head) :
    h.Along (if (h.next.1.bind accepts).isSome then h.next.2 else h.next.2.retract) := by
  split
  · exact Head.along_next h
  · exact (Head.along_next h).trans (Head.along_retract _)

theorem orderly_nextIf (accepts : Byte → Option α) : Orderly (nextIf accepts) :=
  .of_ok _ _ (nextIf_apply accepts) (along_nextIf accepts)

theorem along_skipBlanksFrom (h : Head) : h.Along (skipBlanksFrom h).2 := by
  fun_induction skipBlanksFrom h with
  | case1 h b hnext hblank ih => exact (Head.along_next h).trans ih
  | case2 h b hnext hblank => exact Head.along_next h
  | case3 h hnext => exact Head.along_next h

theorem orderly_skipBlanks : Orderly skipBlanks :=
  .of_ok (fun h => (skipBlanksFrom h).1) _ (fun _ => rfl) along_skipBlanksFrom

end Reader

end BasicLexer
