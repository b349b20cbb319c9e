import BasicLexer.Proofs.Client.Operations
import BasicLexer.Proofs.Reading.Bytewise
import BasicLexer.Proofs.Reading.Sights

/-!
# Clients — taking back a byte

A read may pass over many bytes, comments and blanks among them, and is taken
back by one step. That is enough: from where the step leads, the byte is read
at once, and the scanner is then as it was before the step. Where a read met
the end of the line there is no byte to take back, and the scanner stays as it
is however often it is read from or a byte is taken back
(`Scanner.Ended.afterAll`). No state is asked of the scanner for this
(`Scan.takesBack`), so the loops of its readers may rely on it too.
-/

namespace BasicLexer

namespace Head

variable {h : Head}

/-- A head that met the end of the line in an open comment is at the length of
the line, also where the line was lost and the column lay past it. -/
theorem column_of_next_none (hnext : h.next.1 = none) (hcomment : h.next.2.inComment = true) :
    h.next.2.column = h.next.2.lineLength := by
  rw [(along_next h).lineLength]
  cases hsight : Sight.ofRest h.inComment 0 h.ahead with
  | byte b reach =>
    rw [next, hsight] at hnext
    cases hnext
  | exhausted =>
    rw [next, hsight] at hcomment
    cases hcomment
  | hidden isOpen =>
    rw [next, hsight]
    rfl

/-- Where nothing was read there is nothing to take back. -/
theorem lastRead_of_next_none (hnext : h.next.1 = none) : h.next.2.lastRead = .atEnd := by
  rw [lastRead_next, hnext]
  rfl

/-- A head that met the end of its line stays there. -/
theorem next_eq_self (hahead : h.ahead = []) (hlast : h.lastRead = .atEnd)
    (hcolumn : h.inComment = true → h.column = h.lineLength) : h.next = (none, h) := by
  obtain ⟨behind, ahead, column, tokenStart, inComment, lastRead⟩ := h
  cases hahead
  cases hlast
  cases inComment with
  | false => rfl
  | true =>
    -- inside a comment the column is set to the length of the line, which it is
    have hlength : column = behind.length := hcolumn rfl
    subst hlength
    rfl

/-- **Where nothing was read, nothing is read again**, and the head does not
move any more. -/
theorem next_of_next_none (hnext : h.next.1 = none) : h.next.2.next = (none, h.next.2) :=
  next_eq_self (ahead_next_of_none hnext) (lastRead_of_next_none hnext) (column_of_next_none hnext)

end Head

/-- Skipping blanks ends with a read of one byte, or of none. -/
theorem Reader.exists_next_eq_skipBlanksFrom (h : Head) :
    ∃ last : Head, skipBlanksFrom h = last.next := by
  fun_induction skipBlanksFrom h with
  | case1 h b hnext hblank ih => exact ih
  | case2 h b hnext hblank => exact ⟨h, Prod.ext hnext.symm rfl⟩
  | case3 h hnext => exact ⟨h, Prod.ext hnext.symm rfl⟩

/-- A scanner at the end of its line: reading gives nothing, there is nothing
to take back, and neither moves it. -/
structure Scanner.Ended (s : Scanner) : Prop where
  next : Scan.reading Reader.next s = .ok none s
  pushBack : Scan.reading Reader.pushBack s = .ok () s

/-- **It stays there**, however often it is read from or a byte is taken
back. -/
theorem Scanner.Ended.afterAll {s : Scanner} (hs : s.Ended) {ops : List Operation}
    (hops : ∀ op ∈ ops, op = .nextChar ∨ op = .pushBack) : Operation.afterAll ops s = s := by
  induction ops with
  | nil => rfl
  | cons op ops ih =>
    obtain ⟨hop, hops⟩ := List.forall_mem_cons.mp hops
    have hstep : op.after s = s := by
      rcases hop with rfl | rfl
      · exact (Scan.after_silent _ s).trans (Scan.after_of_ok hs.next)
      · exact Scan.after_of_ok hs.pushBack
    rw [Operation.afterAll, List.foldl_cons, hstep]
    exact ih hops

namespace Scan

variable {s : Scanner}

theorem reading_pushBack (s : Scanner) {h : Head} (hback : s.head.pushBack = .ok h) :
    reading Reader.pushBack s = .ok () { s with head := h } := by
  rw [reading, Reader.pushBack, hback]

/-- A read is taken back exactly. It does not fail; a byte that it gives is
given again once it is taken back, and the scanner is then what it was; where
it gives none, the scanner stays what it is through any further reads and
attempts to take back. -/
def TakesBack (x : Reader (Option Byte)) (s : Scanner) : Prop :=
  ∃ found s₁, reading x s = .ok found s₁ ∧
    match found with
    | some b => ∃ s₂, reading Reader.pushBack s₁ = .ok () s₂ ∧
        reading Reader.next s₂ = .ok (some b) s₁
    | none => s₁.Ended ∧
        ∀ ops : List Operation, (∀ op ∈ ops, op = .nextChar ∨ op = .pushBack) →
          Operation.afterAll ops s₁ = s₁

/-- A read that ends with the next byte of some head is taken back exactly. -/
theorem takesBack_of_next {x : Reader (Option Byte)} {last : Head}
    (hread : x s.head = .ok last.next.1 last.next.2) : TakesBack x s := by
  refine ⟨last.next.1, { s with head := last.next.2 }, by rw [reading, hread], ?_⟩
  have hback := reading_pushBack { s with head := last.next.2 } (Head.pushBack_next last)
  cases hnext : last.next.1 with
  | some b =>
    have hagain := Head.next_retract_next hnext
    refine ⟨_, hback, ?_⟩
    rw [reading, Reader.next, hagain]
  | none =>
    rw [Head.retract_of_atEnd (Head.lastRead_of_next_none hnext)] at hback
    have hended : Scanner.Ended { s with head := last.next.2 } :=
      ⟨by rw [reading, Reader.next, Head.next_of_next_none hnext], hback⟩
    exact ⟨hended, fun ops hops => hended.afterAll hops⟩

/-- **Reads are taken back exactly**, from any scanner: reads of the next byte,
and reads of the next byte that is not blank. -/
theorem takesBack (s : Scanner) : TakesBack Reader.next s ∧ TakesBack Reader.skipBlanks s := by
  refine ⟨takesBack_of_next rfl, ?_⟩
  obtain ⟨last, hlast⟩ := Reader.exists_next_eq_skipBlanksFrom s.head
  have hread : Reader.skipBlanks s.head = .ok last.next.1 last.next.2 := by
    rw [Reader.skipBlanks, hlast]
  exact takesBack_of_next hread

end Scan

end BasicLexer
