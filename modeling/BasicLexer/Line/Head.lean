import BasicLexer.Failure
import BasicLexer.Line.Comment

/-!
# Lines — the reading head

The head stands in the line being scanned, between the bytes it has
passed and those ahead of it. It reads a byte at a time, with comments
passed over or without, and takes back the last byte it read, one byte
and no more.

The column is a number of its own: when a line is lost because reading
the next one failed, the head keeps the column it had.
-/

namespace BasicLexer

/-- What the last read did, which is what taking it back undoes. -/
inductive LastRead where
  /-- Nothing was read since the line was loaded. -/
  | fresh
  /-- A byte was read. -/
  | consumed
  /-- The line ended; nothing was read. -/
  | atEnd
  /-- The byte read was taken back. -/
  | pushedBack
  deriving DecidableEq, Repr

/-- The state of reading a line: the bytes behind the head, nearest
first, and those ahead; the column of the head and that of the last
token; whether the head is inside a block comment; and what the last
read did. -/
structure Head where
  behind : Bytes := []
  ahead : Bytes := []
  column : Nat := 0
  tokenStart : Nat := 0
  inComment : Bool := false
  lastRead : LastRead := .fresh
  deriving DecidableEq, Repr

namespace Head

/-- The whole line. -/
def line (h : Head) : Bytes := h.behind.reverse ++ h.ahead

/-- The length of the whole line. -/
def lineLength (h : Head) : Nat := h.behind.length + h.ahead.length

/-- The head at the start of a new line. A block comment left open
stays open. -/
def load (h : Head) (line : Bytes) : Head := { ahead := line, inComment := h.inComment }

/-- The head on a line whose bytes are lost. -/
def lose (h : Head) : Head := { h with behind := [], ahead := [] }

/-- Pass over the next `n` bytes. -/
def forward (h : Head) (n : Nat) : Head :=
  { h with
    behind := (h.ahead.take n).reverseAux h.behind
    ahead := h.ahead.drop n
    column := h.column + n }

/-- Pass over the rest of the line. -/
def toEnd (h : Head) : Head :=
  { h.forward h.ahead.length with column := h.lineLength }

/-- Read the next byte, comments and all. -/
def read (h : Head) : Option Byte × Head :=
  match h.ahead with
  | [] => (none, { h with lastRead := .atEnd })
  | b :: _ => (some b, { h.forward 1 with lastRead := .consumed })

/-- Read the next byte that no comment hides. -/
def next (h : Head) : Option Byte × Head :=
  match Sight.ofRest h.inComment 0 h.ahead with
  | .byte b reach => (some b, { h.forward reach with inComment := false, lastRead := .consumed })
  | .exhausted =>
    (none, { h.forward h.ahead.length with inComment := false, lastRead := .atEnd })
  | .hidden isOpen => (none, { h.toEnd with inComment := isOpen, lastRead := .atEnd })

/-- The head one byte back where the last read moved it, and where it
is otherwise. -/
def retract (h : Head) : Head :=
  match h.lastRead with
  | .consumed =>
    { h with
      behind := h.behind.tail
      ahead := h.behind.head?.toList ++ h.ahead
      column := h.column - 1
      lastRead := .pushedBack }
  | _ => h

/-- Take back the last byte read. Where the last read met the end of the
line there is nothing to take back; a byte taken back cannot be followed
by another. -/
def pushBack (h : Head) : Except Breach Head :=
  if h.lastRead = .pushedBack then .error .secondPushBack else .ok h.retract

/-! ## How far a read goes -/

/-- A byte that is read is off the bytes ahead. -/
theorem length_ahead_read {h : Head} {b : Byte} (hread : h.read.1 = some b) :
    h.read.2.ahead.length + 1 = h.ahead.length := by
  unfold read at *
  split at hread
  · simp at hread
  · rename_i heq
    simp [forward, heq]

/-- A byte that is seen is off the bytes ahead. -/
theorem length_ahead_next {h : Head} {b : Byte} (hnext : h.next.1 = some b) :
    h.next.2.ahead.length < h.ahead.length := by
  unfold next at *
  split at hnext
  · rename_i c reach hsight
    have := Sight.reach_ofRest hsight
    simp only [forward, List.length_drop]
    omega
  · simp at hnext
  · simp at hnext

/-- Where no byte is seen the line is at its end. -/
theorem ahead_next_of_none {h : Head} (hnext : h.next.1 = none) : h.next.2.ahead = [] := by
  unfold next at *
  split at hnext <;> simp_all [toEnd, forward]

/-- Going back puts no more than one byte ahead. -/
theorem length_ahead_retract (h : Head) : h.retract.ahead.length ≤ h.ahead.length + 1 := by
  unfold retract
  split
  · cases h.behind <;> simp
  · omega

/-- At the end of a line there is nothing to go back over. -/
theorem retract_of_atEnd {h : Head} (hlast : h.lastRead = .atEnd) : h.retract = h := by
  simp [retract, hlast]

/-- What the last read did says whether a byte was seen. -/
theorem lastRead_next (h : Head) :
    h.next.2.lastRead = if h.next.1.isSome then .consumed else .atEnd := by
  unfold next
  split <;> rfl

/-- What was just read can be taken back. -/
theorem pushBack_next (h : Head) : h.next.2.pushBack = .ok h.next.2.retract := by
  have hlast := lastRead_next h
  cases hnext : h.next.1 <;> simp [pushBack, hlast, hnext]

end Head

end BasicLexer
