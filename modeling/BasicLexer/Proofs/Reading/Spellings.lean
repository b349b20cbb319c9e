import BasicLexer.Proofs.Reading.Conformity

/-!
# Reading — the inside of a string

Between double quotes a byte is written as it is, as a letter behind a
backslash, or as itself behind one: `Quotation.Writes` for one byte,
`Quotation.Spells` for the contents of a string. Whichever way contents are
spelled, they are what is read (`Quotation.bodyFrom_spelled`).

Whatever stands behind an opening quote, `Quotation.inside` cuts it into
characters, up to the closing quote or the end of the line. What a string is
refused for is a matter of their number and of that quote
(`Quotation.refusal?_bodyFrom`), but for the newline of a line: where a string
that is not closed has just as many characters as there is room for, the
newline is one too many (`Quotation.Inside.Overrun`).
-/

namespace BasicLexer

namespace Quotation

/-! ## Spellings -/

/-- The ways to write a byte between double quotes. -/
inductive Writes : Bytes → Byte → Prop
  | raw {b : Byte} (hquote : b ≠ Byte.doubleQuote) (hbackslash : b ≠ Byte.backslash)
    (hnewline : b ≠ Byte.newline) : Writes [b] b
  | newline : Writes [Byte.backslash, Byte.letterN] Byte.newline
  | carriageReturn : Writes [Byte.backslash, Byte.letterR] Byte.carriageReturn
  | tab : Writes [Byte.backslash, Byte.letterT] Byte.tab
  | escaped {b : Byte} (hn : b ≠ Byte.letterN) (hr : b ≠ Byte.letterR) (ht : b ≠ Byte.letterT)
    (hnewline : b ≠ Byte.newline) : Writes [Byte.backslash, b] b

/-- What is written between double quotes for a string: each byte of its
contents in one of the ways there are to write it. -/
inductive Spells : Bytes → Bytes → Prop
  | nil : Spells [] []
  | cons {written rest contents : Bytes} {b : Byte} (hfirst : Writes written b)
    (hrest : Spells rest contents) : Spells (written ++ rest) (b :: contents)

/-- A byte is written as one that stands for itself, or as a backslash and
one that stands for it after a backslash. -/
theorem Writes.cases {written : Bytes} {b : Byte} (hwrites : Writes written b) :
    (written = [b] ∧ b ≠ Byte.doubleQuote ∧ b ≠ Byte.backslash ∧ b ≠ Byte.newline) ∨
      ∃ c, written = [Byte.backslash, c] ∧ unescape c = b ∧ c ≠ Byte.newline := by
  cases hwrites with
  | raw hquote hbackslash hnewline => exact .inl ⟨rfl, hquote, hbackslash, hnewline⟩
  | newline | carriageReturn | tab => exact .inr ⟨_, rfl, rfl, by decide⟩
  | escaped hn hr ht hnewline =>
    refine .inr ⟨b, rfl, ?_, hnewline⟩
    rw [unescape, if_neg hn, if_neg hr, if_neg ht]

/-- **One character** of a string is read whichever way it is written, if
anything comes after it. -/
theorem bodyFrom_of_writes {written rest : Bytes} {b : Byte} (hwrites : Writes written b)
    (taken : Bytes) (passed room : Nat) (hrest : rest ≠ []) :
    bodyFrom taken passed (room + 1) (written ++ rest) =
      bodyFrom (b :: taken) (passed + written.length) room rest := by
  obtain ⟨d, tail, rfl⟩ := List.exists_cons_of_ne_nil hrest
  have hroom : room + 1 ≠ 0 := Nat.succ_ne_zero room
  rcases hwrites.cases with ⟨rfl, hquote, hbackslash, -⟩ | ⟨c, rfl, rfl, -⟩
  · rw [List.singleton_append, bodyFrom, if_neg hquote, if_neg hroom, if_neg hbackslash]
    rfl
  · have hne : Byte.backslash ≠ Byte.doubleQuote := by decide
    rw [List.cons_append, List.singleton_append, bodyFrom, if_neg hne, if_neg hroom, if_pos rfl]
    rfl

/-- **A string is read as its contents**, however they are spelled and
whatever comes after the closing quote, where there is room for them. -/
theorem bodyFrom_spelled {written contents : Bytes} (hspells : Spells written contents)
    (taken : Bytes) (passed : Nat) {room : Nat} (hroom : contents.length ≤ room) (after : Bytes) :
    bodyFrom taken passed room (written ++ Byte.doubleQuote :: after) =
      .closed (taken.reverse ++ contents) (passed + written.length + 1) := by
  induction hspells generalizing taken passed room with
  | nil => cases after <;> simp [bodyFrom]
  | @cons written rest contents b hfirst _ ih =>
    rw [List.length_cons] at hroom
    obtain ⟨room, rfl⟩ : ∃ n, room = n + 1 := ⟨room - 1, by omega⟩
    have hmore : rest ++ Byte.doubleQuote :: after ≠ [] :=
      List.append_ne_nil_of_right_ne_nil _ (List.cons_ne_nil _ _)
    rw [List.append_assoc, bodyFrom_of_writes hfirst taken passed room hmore,
      ih (b :: taken) (passed + written.length) (Nat.le_of_succ_le_succ hroom), List.reverse_cons,
      List.append_assoc, List.singleton_append, List.length_append, Nat.add_assoc passed]

/-! ## The characters there are -/

/-- What stands behind an opening quote: its characters, each as it is
written, and whether a closing quote ends them. -/
structure Inside where
  characters : List Bytes := []
  closed : Bool := false
  deriving DecidableEq, Repr

/-- The inside with a character more in front. -/
def Inside.after (i : Inside) (written : Bytes) : Inside :=
  { i with characters := written :: i.characters }

/-- Cut what stands behind an opening quote into characters. A backslash and
the byte after it are one, and the first double quote that is no such byte
closes the string. -/
def inside : Bytes → Inside
  | [] => {}
  | [b] => if b = Byte.doubleQuote then { closed := true } else { characters := [[b]] }
  | b :: c :: rest =>
    if b = Byte.doubleQuote then { closed := true }
    else if b = Byte.backslash then (inside rest).after [b, c]
    else (inside (c :: rest)).after [b]

/-- **Where the newline at the end of a line is one too many**: no quote
closes the string, its characters leave no room, and the last of them is no
lone backslash, which would take the newline for its own. -/
def Inside.Overrun (i : Inside) (room : Nat) : Prop :=
  i.closed = false ∧ i.characters.length = room ∧ i.characters.getLast? ≠ some [Byte.backslash]

instance (i : Inside) (room : Nat) : Decidable (i.Overrun room) :=
  inferInstanceAs (Decidable (_ ∧ _))

/-- What a string is refused for, up to the end of its line, if it is. -/
def Inside.refusal? (i : Inside) (room : Nat) : Option Cause :=
  if room < i.characters.length ∨ i.Overrun room then some .stringTooLong
  else if i.closed then none
  else some .unterminatedString

/-- What the reading of a string fails of, if it does. -/
def Body.refusal? : Body → Option Cause
  | closed _ _ => none
  | tooLong _ => some .stringTooLong
  | unterminated => some .unterminatedString

section Refusals

variable {i : Inside} {written : Bytes} {room : Nat}

theorem Inside.refusal?_eq_tooLong :
    i.refusal? room = some .stringTooLong ↔ room < i.characters.length ∨ i.Overrun room := by
  unfold refusal?
  split
  · simp [*]
  · split <;> simp [*]

theorem Inside.refusal?_eq_none :
    i.refusal? room = none ↔ i.closed = true ∧ i.characters.length ≤ room := by
  unfold refusal? Overrun
  split
  · rename_i hlong
    refine iff_of_false nofun fun h => ?_
    rcases hlong with hlong | hover
    · exact Nat.not_le.mpr hlong h.2
    · exact absurd h.1 (by simp [hover.1])
  · split <;> simp_all

theorem Inside.refusal?_eq_unterminated :
    i.refusal? room = some .unterminatedString ↔
      i.closed = false ∧ i.characters.length ≤ room ∧ ¬ i.Overrun room := by
  unfold refusal?
  split
  · rename_i hlong
    refine iff_of_false nofun fun h => ?_
    exact hlong.elim (fun hlong => Nat.not_le.mpr hlong h.2.1) h.2.2
  · split <;> simp_all

/-- A character takes a place of the room, and no more than that. -/
theorem Inside.overrun_after (hwritten : written ≠ [Byte.backslash]) :
    (i.after written).Overrun (room + 1) ↔ i.Overrun room := by
  have hlast : (written :: i.characters).getLast? = some [Byte.backslash] ↔
      i.characters.getLast? = some [Byte.backslash] := by
    cases hlast : i.characters.getLast? <;> simp [List.getLast?_cons, hlast, hwritten]
  simp only [Overrun, after, List.length_cons, Nat.add_right_cancel_iff, ne_eq, hlast]

theorem Inside.refusal?_after (hwritten : written ≠ [Byte.backslash]) :
    (i.after written).refusal? (room + 1) = i.refusal? room := by
  have hlength : (i.after written).characters.length = i.characters.length + 1 := rfl
  have hclosed : (i.after written).closed = i.closed := rfl
  simp only [refusal?, overrun_after hwritten, hlength, Nat.add_lt_add_iff_right, hclosed]

/-- Where there is no room, a character is one too many. -/
theorem Inside.refusal?_after_zero : (i.after written).refusal? 0 = some .stringTooLong :=
  if_pos (.inl (Nat.succ_pos _))

end Refusals

/-- The newline ends a string that is not closed, or is one byte too
many. -/
theorem refusal?_newline (taken : Bytes) (passed room : Nat) :
    (bodyFrom taken passed room [Byte.newline]).refusal? = Inside.refusal? {} room := by
  have hnewline : Byte.newline ≠ Byte.doubleQuote := by decide
  rw [bodyFrom, if_neg hnewline]
  cases room with
  | zero => rfl
  | succ room => rfl

/-- **What a string fails of** on a line is told by its inside. -/
theorem refusal?_bodyFrom (taken : Bytes) (passed room : Nat) (body : Bytes) :
    (bodyFrom taken passed room (body ++ [Byte.newline])).refusal? =
      (inside body).refusal? room := by
  fun_induction inside body generalizing taken passed room with
  | case1 => exact refusal?_newline taken passed room
  | case2 | case4 => exact (Inside.refusal?_eq_none.mpr ⟨rfl, Nat.zero_le room⟩).symm
  | case3 b hquote =>
    rw [List.singleton_append, bodyFrom, if_neg hquote]
    cases room with
    | zero => exact (Inside.refusal?_after_zero (i := {})).symm
    | succ room =>
      rw [if_neg (Nat.succ_ne_zero room)]
      by_cases hbackslash : b = Byte.backslash
      -- the backslash takes the newline, and the line is over
      · rw [if_pos hbackslash, bodyFrom, hbackslash]
        refine (Inside.refusal?_eq_unterminated.mpr ⟨rfl, Nat.succ_pos room, fun h => ?_⟩).symm
        exact h.2.2 rfl
      · rw [if_neg hbackslash, refusal?_newline]
        exact (Inside.refusal?_after (i := {}) (by simpa using hbackslash)).symm
  | case5 c rest hquote ih =>
    rw [List.cons_append, List.cons_append, bodyFrom, if_neg hquote]
    cases room with
    | zero => exact Inside.refusal?_after_zero.symm
    | succ room =>
      rw [if_neg (Nat.succ_ne_zero room), if_pos rfl, Inside.refusal?_after (by simp)]
      exact ih _ _ room
  | case6 b c rest hquote hbackslash ih =>
    rw [List.cons_append, List.cons_append, bodyFrom, if_neg hquote]
    cases room with
    | zero => exact Inside.refusal?_after_zero.symm
    | succ room =>
      rw [if_neg (Nat.succ_ne_zero room), if_neg hbackslash,
        Inside.refusal?_after (by simpa using hbackslash)]
      exact ih _ _ room

end Quotation

namespace Lexeme

/-! ## The token -/

variable (options : Options) {h h₁ : Head}

/-- Behind a double quote that begins a token the inside of a string is
read. -/
theorem read_of_doubleQuote
    (hskip : Reader.skipBlanksFrom h = (some Byte.doubleQuote, h₁)) :
    read options h =
      match Quotation.bodyFrom [] 0 options.maxToken h₁.ahead with
      | .closed contents reach =>
        .ok { kind := .string, text := contents.text, offset := h₁.column - 1 }
          { h₁.forward reach with tokenStart := h₁.column - 1, lastRead := .consumed }
      | .tooLong reach =>
        .error (.reported .stringTooLong)
          { h₁.forward reach with tokenStart := h₁.column - 1, lastRead := .consumed }
      | .unterminated =>
        .error (.reported .unterminatedString)
          { h₁.forward h₁.ahead.length with tokenStart := h₁.column - 1, lastRead := .atEnd } := by
  rw [read_eq, hskip]
  dsimp only
  rw [readFrom, if_pos rfl]
  simp only [Bind.bind, EStateM.bind, Quotation.readString]
  cases Quotation.bodyFrom [] 0 options.maxToken h₁.ahead <;> rfl

/-- **A string that is spelled is a token**, with its contents as its
text. -/
theorem read_of_spells {written contents after : Bytes}
    (hskip : Reader.skipBlanksFrom h = (some Byte.doubleQuote, h₁))
    (hahead : h₁.ahead = written ++ Byte.doubleQuote :: after)
    (hspells : Quotation.Spells written contents) (hroom : contents.length ≤ options.maxToken) :
    read options h =
      .ok { kind := .string, text := contents.text, offset := h₁.column - 1 }
        { h₁.forward (written.length + 1) with
          tokenStart := h₁.column - 1, lastRead := .consumed } := by
  rw [read_of_doubleQuote options hskip, hahead, Quotation.bodyFrom_spelled hspells [] 0 hroom]
  simp only [List.reverse_nil, List.nil_append, Nat.zero_add]

end Lexeme

end BasicLexer
