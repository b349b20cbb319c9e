import BasicLexer.Diagnostic.Cause
import BasicLexer.Line.Head

/-!
# Lines — reading with a head

The readers that tokens are scanned with: computations that move a head
and may fail of a cause. A failed reader leaves the head where it failed.
-/

namespace BasicLexer

/-- A computation that moves a head. -/
abbrev Reader := EStateM (Failure Cause) Head

namespace Reader

/-- Fail of a cause. -/
def fail {α : Type} (cause : Cause) : Reader α := throw (.reported cause)

/-- Read the next byte, comments and all. -/
def read : Reader (Option Byte) := fun h => .ok h.read.1 h.read.2

/-- Read the next byte that no comment hides. -/
def next : Reader (Option Byte) := fun h => .ok h.next.1 h.next.2

/-- Take back the last byte read. -/
def pushBack : Reader Unit := fun h =>
  match h.pushBack with
  | .ok h' => .ok () h'
  | .error breach => .error (.breach breach) h

/-- Read the next byte if there is one that is accepted; a byte that is
not accepted is taken back. -/
def nextIf {α : Type} (accepts : Byte → Option α) : Reader (Option α) := do
  match (← next).bind accepts with
  | some a => return some a
  | none => pushBack; return none

/-- Move the head over blanks to the first byte that is none. -/
def skipBlanksFrom (h : Head) : Option Byte × Head :=
  match _hnext : h.next.1 with
  | some b => if b.isBlank then skipBlanksFrom h.next.2 else (some b, h.next.2)
  | none => (none, h.next.2)
  termination_by h.ahead.length
  decreasing_by exact Head.length_ahead_next _hnext

/-- Read the first byte that neither is blank nor hidden. -/
def skipBlanks : Reader (Option Byte) := fun h => .ok (skipBlanksFrom h).1 (skipBlanksFrom h).2

/-! ## Readers that do not move back

A reader keeps its place if it never ends with more ahead than it began
with. Scanning a line ends because every token but the last takes
something off what is ahead. -/

/-- A reader that never gives bytes back beyond its start. -/
def Keeps {α : Type} (x : Reader α) : Prop :=
  ∀ h a h', x h = .ok a h' → h'.ahead.length ≤ h.ahead.length

theorem Keeps.pure {α : Type} (a : α) : Keeps (pure a : Reader α) := by
  rintro h _ _ ⟨⟩
  exact Nat.le_refl _

theorem Keeps.fail {α : Type} (cause : Cause) : Keeps (Reader.fail cause : Reader α) := by
  rintro h _ _ ⟨⟩

theorem Keeps.bind {α β : Type} {x : Reader α} {f : α → Reader β} (hx : x.Keeps)
    (hf : ∀ a, (f a).Keeps) : (x >>= f).Keeps := by
  intro h b h'' hrun
  obtain ⟨a, h', hfirst, hrest⟩ := bind_eq_ok hrun
  exact Nat.le_trans (hf a h' b h'' hrest) (hx h a h' hfirst)

theorem Keeps.read : Keeps read := by
  intro h a h' hrun
  simp only [Reader.read, EStateM.Result.ok.injEq] at hrun
  obtain ⟨-, rfl⟩ := hrun
  cases hread : h.read.1 with
  | some b => have := Head.length_ahead_read hread; omega
  | none =>
    unfold Head.read at *
    split at hread <;> simp_all

/-- Reading a byte if it is accepted never breaks the rule of taking
back one byte: the byte taken back was just read. -/
theorem nextIf_apply {α : Type} (accepts : Byte → Option α) (h : Head) :
    nextIf accepts h =
      .ok (h.next.1.bind accepts)
        (if (h.next.1.bind accepts).isSome then h.next.2 else h.next.2.retract) := by
  have hpush : pushBack h.next.2 = .ok () h.next.2.retract := by
    simp [pushBack, Head.pushBack_next]
  simp only [nextIf, Bind.bind, EStateM.bind, Reader.next]
  cases h.next.1.bind accepts with
  | some a => rfl
  | none => simp [EStateM.bind, hpush, Pure.pure, EStateM.pure]

/-- Reading a byte, or not, is no failure. -/
theorem nextIf_ne_error {α : Type} {accepts : Byte → Option α} {h h' : Head}
    {failure : Failure Cause} : nextIf accepts h ≠ .error failure h' := by
  rw [nextIf_apply]
  rintro ⟨⟩

/-- A byte that is accepted is off what is ahead, and one that is not is
there again. -/
theorem length_ahead_nextIf {α : Type} {accepts : Byte → Option α} {h h' : Head} {a : Option α}
    (hrun : nextIf accepts h = .ok a h') :
    h'.ahead.length + (if a.isSome then 1 else 0) ≤ h.ahead.length := by
  rw [nextIf_apply] at hrun
  simp only [EStateM.Result.ok.injEq] at hrun
  obtain ⟨rfl, rfl⟩ := hrun
  cases hnext : h.next.1 with
  | none =>
    have hlast := Head.lastRead_next h
    simp only [hnext, Option.isSome_none, Bool.false_eq_true, if_false] at hlast
    simp [Head.retract_of_atEnd hlast, Head.ahead_next_of_none hnext]
  | some b =>
    have hlt := Head.length_ahead_next hnext
    have hback := Head.length_ahead_retract h.next.2
    split <;> omega

theorem Keeps.nextIf {α : Type} (accepts : Byte → Option α) : Keeps (Reader.nextIf accepts) := by
  intro h a h' hrun
  have := length_ahead_nextIf hrun
  omega

/-- Skipping blanks keeps its place, and reads a byte where it sees
one. -/
theorem length_ahead_skipBlanksFrom (h : Head) :
    (skipBlanksFrom h).2.ahead.length + (if (skipBlanksFrom h).1.isSome then 1 else 0) ≤
      h.ahead.length := by
  fun_induction skipBlanksFrom h with
  | case1 h b hnext hblank ih => have := Head.length_ahead_next hnext; omega
  | case2 h b hnext hblank => have := Head.length_ahead_next hnext; simp; omega
  | case3 h hnext => simp [Head.ahead_next_of_none hnext]

theorem Keeps.skipBlanks : Keeps Reader.skipBlanks := by
  intro h a h' hrun
  simp only [Reader.skipBlanks, EStateM.Result.ok.injEq] at hrun
  obtain ⟨-, rfl⟩ := hrun
  have := length_ahead_skipBlanksFrom h
  omega

end Reader

end BasicLexer
