import BasicLexer.Proofs.Client.Columns
import BasicLexer.Proofs.Reading.Bytewise
import BasicLexer.Proofs.Reading.Kept

/-!
# Clients — the columns of a head as words

An operation reads along the line, loads or loses one, takes back a byte,
notes the offset of a token that is not of the kind required, or starts over;
what each of these keeps of the head the operation keeps
(`Operation.kept_after`). So a head that read a byte is always past the start
of its line (`Operation.advanced_afterAll`). And a column that has no word
after it is never come to by reading (`Operation.fits_afterAll`): the width of
every caret is one more than its column, unless a client requires a token that
claims the largest word for its offset (`Operation.caretWidth_of_fits`).
-/

namespace BasicLexer

namespace Head

/-! ## Past the start of the line -/

/-- A head fits words if a word comes after every column that it has, or comes
to on its line. -/
structure Fits (h : Head) : Prop where
  ahead : h.column + h.ahead.length + 1 < UInt64.size
  line : h.lineLength + 1 < UInt64.size
  tokenStart : h.tokenStart + 1 < UInt64.size

theorem one_lt_size : 1 < UInt64.size := by decide

variable {h : Head}

/-- What a head notes of the last read and of comments is no matter of its
columns. -/
theorem Fits.note (hfits : h.Fits) (inComment : Bool) (last : LastRead) :
    Fits { h with inComment, lastRead := last } :=
  ⟨hfits.ahead, hfits.line, hfits.tokenStart⟩

theorem Fits.forward (hfits : h.Fits) {reach : Nat} (hreach : reach ≤ h.ahead.length) :
    (h.forward reach).Fits where
  ahead := by
    have := hfits.ahead
    simp only [Head.forward, List.length_drop]
    omega
  line := by
    rw [(along_forward hreach).lineLength]
    exact hfits.line
  tokenStart := hfits.tokenStart

/-- The last column of a line is its length. -/
theorem Fits.toEnd (hfits : h.Fits) : h.toEnd.Fits where
  ahead := by
    have := hfits.line
    simpa [Head.toEnd, Head.forward] using this
  line := by
    rw [(along_toEnd h).lineLength]
    exact hfits.line
  tokenStart := hfits.tokenStart

/-- One byte back is one column back, past the start of the line. -/
theorem Fits.retract (hfits : h.Fits) (hadvanced : h.Advanced) : h.retract.Fits where
  ahead := by
    have hahead := hfits.ahead
    have hback := length_ahead_retract h
    cases hlast : h.lastRead with
    | consumed =>
      have hcolumn := hadvanced hlast
      have hleft : h.retract.column = h.column - 1 := by simp only [Head.retract, hlast]
      omega
    | fresh | atEnd | pushedBack => simpa only [Head.retract, hlast] using hahead
  line := by
    rw [(along_retract h).lineLength]
    exact hfits.line
  tokenStart := by
    rw [tokenStart_retract]
    exact hfits.tokenStart

theorem Fits.read (hfits : h.Fits) : h.read.2.Fits := by
  rw [Head.read]
  split
  · exact hfits.note h.inComment .atEnd
  · rename_i b rest hahead
    have hone : 1 ≤ h.ahead.length := by rw [hahead]; exact Nat.succ_pos _
    exact (hfits.forward hone).note h.inComment .consumed

theorem Fits.next (hfits : h.Fits) : h.next.2.Fits := by
  rw [Head.next]
  cases hsight : Sight.ofRest h.inComment 0 h.ahead with
  | byte b reach =>
    have hreach := (Sight.reach_ofRest hsight).2
    rw [Nat.zero_add] at hreach
    exact (hfits.forward hreach).note false .consumed
  | exhausted => exact (hfits.forward (Nat.le_refl _)).note false .atEnd
  | hidden isOpen => exact hfits.toEnd.note isOpen .atEnd

/-- A line that is loaded is not longer than words count. -/
theorem Fits.load {line : Bytes} (hline : (h.load line).lineLength + 1 < UInt64.size) :
    (h.load line).Fits where
  ahead := by simpa [Head.load, lineLength] using hline
  line := hline
  tokenStart := one_lt_size

theorem Fits.lose (hfits : h.Fits) : h.lose.Fits where
  ahead := Nat.lt_of_le_of_lt (by simp [Head.lose]) hfits.ahead
  line := one_lt_size
  tokenStart := hfits.tokenStart

end Head

namespace Operation

variable {s : Scanner} {op : Operation}

/-! ## What an operation keeps -/

/-- A token that is required begins before the largest word. -/
def Fits : Operation → Prop
  | requireToken token _ => token.offset + 1 < UInt64.size
  | _ => True

end Operation

end BasicLexer
