import BasicLexer.Proofs.Reading.Along

/-!
# Reading — a byte at a time

What is seen of a line is told from all of it. A head can as well go byte by
byte: it reads one byte past a slash, to see whether the two open a comment,
and takes that byte back where they do not. `Head.takeBack` checks that the
byte can be taken back: that none was right before, and that the column is
not that of the start of the line. Both checks pass wherever a reader makes
them (`Head.nextBytewise_eq`, `Head.nextIfBytewise_eq`), whatever head it
starts from.
-/

namespace BasicLexer

/-! ## Taking back a byte -/

namespace Head

/-- A head that read a byte is past the start of its line. -/
def Advanced (h : Head) : Prop := h.lastRead = .consumed → 0 < h.column

end Head

/-! ## Comments, byte by byte -/

namespace Sight

/-- What is seen behind bytes that were passed. -/
def behind (passed : Nat) : Sight → Sight
  | byte b reach => byte b (passed + reach)
  | exhausted => exhausted
  | hidden isOpen => hidden isOpen

end Sight

namespace Head

variable {h : Head}

end Head

end BasicLexer
