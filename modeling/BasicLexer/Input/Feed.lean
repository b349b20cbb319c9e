import BasicLexer.Text.Byte

/-!
# Input — lines off a buffered feed

A file is read through a buffer, so its contents arrive in chunks whose
lengths mean nothing. A line is cut off the front of the feed: through
the first newline, or at the limit if that comes first. The lines do not
depend on the chunks.
-/

namespace BasicLexer

/-- A measure of the elements of a list, summed up. -/
def total {α : Type} (measure : α → Nat) : List α → Nat
  | [] => 0
  | a :: rest => measure a + total measure rest

/-- Contents still to be read, in the chunks they will arrive in. -/
abbrev Feed := List Bytes

namespace Feed

/-- What a cut takes off a chunk, what it leaves, and whether it ended
at a newline. -/
structure Cut where
  taken : Bytes
  rest : Bytes
  ended : Bool
  deriving DecidableEq, Repr

/-- Cut a chunk after its first newline or after `room` bytes, whichever
comes first. The bytes taken so far are held in reverse. -/
def cutFrom (taken : Bytes) (room : Nat) : Bytes → Cut
  | [] => ⟨taken.reverse, [], false⟩
  | b :: rest =>
    match room with
    | 0 => ⟨taken.reverse, b :: rest, false⟩
    | room + 1 =>
      if b = Byte.newline then ⟨(b :: taken).reverse, rest, true⟩
      else cutFrom (b :: taken) room rest

/-- Cut at most `room` bytes of a line off a feed. A chunk that ends
before the line does is followed by the next. -/
def cutLine (room : Nat) : Feed → Bytes × Feed
  | [] => ([], [])
  | chunk :: feed =>
    let cut := cutFrom [] room chunk
    if cut.ended || cut.taken.length = room then (cut.taken, cut.rest :: feed)
    else
      let next := cutLine (room - cut.taken.length) feed
      (cut.taken ++ next.1, next.2)

/-- The next line of a feed, newline included, in at most `limit` bytes
and never in none: a limit of zero is one of one. A line longer than the
limit comes in pieces, and an exhausted feed gives the empty line. -/
def readLine (limit : Nat) (feed : Feed) : Bytes × Feed := cutLine (max limit 1) feed

/-- The bytes a feed still holds. -/
def size (feed : Feed) : Nat := total List.length feed

/-- Contents in chunks of `last + 1` bytes, the last chunk aside. -/
def ofBytes (last : Nat) : Bytes → Feed
  | [] => []
  | b :: rest => (b :: rest.take last) :: ofBytes last (rest.drop last)
  termination_by contents => contents.length
  decreasing_by simp only [List.length_cons, List.length_drop]; omega

/-! ## A cut loses nothing -/

theorem length_cutFrom (taken : Bytes) (room : Nat) (chunk : Bytes) :
    (cutFrom taken room chunk).taken.length + (cutFrom taken room chunk).rest.length =
      taken.length + chunk.length := by
  induction chunk generalizing taken room with
  | nil => simp [cutFrom]
  | cons b rest ih =>
    cases room with
    | zero => simp [cutFrom]
    | succ room =>
      simp only [cutFrom]
      split
      · simp; omega
      · rw [ih]; simp; omega

/-- A cut that ends neither at a newline nor at the limit ends at the
end of its chunk. -/
theorem rest_cutFrom {taken : Bytes} {room : Nat} {chunk : Bytes}
    (hended : (cutFrom taken room chunk).ended = false)
    (hroom : (cutFrom taken room chunk).taken.length ≠ taken.length + room) :
    (cutFrom taken room chunk).rest = [] := by
  induction chunk generalizing taken room with
  | nil => rfl
  | cons b rest ih =>
    cases room with
    | zero => simp [cutFrom] at hroom
    | succ room =>
      simp only [cutFrom] at hended hroom ⊢
      split at hended
      · simp at hended
      · rename_i hb
        rw [if_neg hb] at hroom ⊢
        exact ih hended (by simp only [List.length_cons]; omega)

/-- A line and what is left after it have the bytes of the feed. -/
theorem size_cutLine (room : Nat) (feed : Feed) :
    (cutLine room feed).1.length + size (cutLine room feed).2 = size feed := by
  induction feed generalizing room with
  | nil => simp [cutLine, size, total]
  | cons chunk feed ih =>
    have hcut := length_cutFrom [] room chunk
    simp only [List.length_nil, Nat.zero_add] at hcut
    simp only [cutLine]
    split
    · simp only [size, total]
      omega
    · rename_i hgo
      simp only [Bool.or_eq_true, decide_eq_true_eq, not_or, Bool.not_eq_true] at hgo
      have hrest := rest_cutFrom hgo.1 (by simpa using hgo.2)
      have := ih (room - (cutFrom [] room chunk).taken.length)
      simp only [hrest, List.length_nil, Nat.add_zero] at hcut
      simp only [size, total, List.length_append] at *
      omega

/-- Reading a line takes its bytes off the feed. -/
theorem size_readLine (limit : Nat) (feed : Feed) :
    (readLine limit feed).1.length + size (readLine limit feed).2 = size feed :=
  size_cutLine _ feed

end Feed

end BasicLexer
