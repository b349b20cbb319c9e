import BasicLexer.Scanner.Lines

/-!
# Input — the logical lines of a text

A text is cut after every newline and after every `limit` bytes, whichever
comes first, and a piece that lacks a newline is given one:
`Bytes.logicalLines`. Lines that are short enough are the logical lines of
what they make up together (`Bytes.logicalLines_flatten`). These are the
lines that are read off a feed, and how the feed is cut into chunks has no
say in it (`Feed.cutLine_flatten`).
-/

namespace BasicLexer

namespace Bytes

/-! ## Cutting a text -/

/-- The first line of a text, cut after its first newline or after `room`
bytes, and what is left. A byte is taken however little room there is. -/
def firstLine (room : Nat) : Bytes → Bytes × Bytes
  | [] => ([], [])
  | b :: rest =>
    if b = Byte.newline ∨ room ≤ 1 then ([b], rest)
    else (b :: (firstLine (room - 1) rest).1, (firstLine (room - 1) rest).2)

theorem length_firstLine (room : Nat) (text : Bytes) :
    (firstLine room text).1.length + (firstLine room text).2.length = text.length := by
  induction text generalizing room with
  | nil => rfl
  | cons b rest ih =>
    unfold firstLine
    split
    · simp only [List.length_cons, List.length_nil]
      omega
    · have := ih (room - 1)
      simp only [List.length_cons]
      omega

/-- What is cut off fits the room. -/
theorem length_firstLine_le {room : Nat} (hroom : 0 < room) (text : Bytes) :
    (firstLine room text).1.length ≤ room := by
  induction text generalizing room with
  | nil => exact Nat.zero_le room
  | cons b rest ih =>
    rw [firstLine]
    split
    · exact hroom
    · have hrest : (firstLine (room - 1) rest).1.length ≤ room - 1 := ih (by omega)
      rw [List.length_cons]
      omega

theorem firstLine_cons_ne_nil (room : Nat) (b : Byte) (rest : Bytes) :
    (firstLine room (b :: rest)).1 ≠ [] := by
  unfold firstLine
  split <;> simp

/-- The pieces a text is cut into, in order. -/
def pieces (limit : Nat) : Bytes → List Bytes
  | [] => []
  | b :: rest =>
    (firstLine (max limit 1) (b :: rest)).1 ::
      pieces limit (firstLine (max limit 1) (b :: rest)).2
  termination_by text => text.length
  decreasing_by
    have := length_firstLine (max limit 1) (b :: rest)
    have := List.length_pos_iff.mpr (firstLine_cons_ne_nil (max limit 1) b rest)
    omega

/-- The logical lines of a text: its pieces, each with a newline at its
end. -/
def logicalLines (limit : Nat) (text : Bytes) : List Bytes :=
  (pieces limit text).map Scan.terminated

theorem logicalLines_nil (limit : Nat) : logicalLines limit [] = [] := by
  rw [logicalLines, pieces, List.map_nil]

theorem logicalLines_cons (limit : Nat) (b : Byte) (rest : Bytes) :
    logicalLines limit (b :: rest) =
      Scan.terminated (firstLine (max limit 1) (b :: rest)).1 ::
        logicalLines limit (firstLine (max limit 1) (b :: rest)).2 := by
  rw [logicalLines, pieces, List.map_cons, ← logicalLines]

/-! ## Lines -/

/-- Bytes are a line if their last one is their only newline. -/
def IsLine (line : Bytes) : Prop := ∃ body, Byte.newline ∉ body ∧ line = body ++ [Byte.newline]

theorem isLine_cons {b : Byte} {rest : Bytes} :
    IsLine (b :: rest) ↔ if b = Byte.newline then rest = [] else IsLine rest := by
  constructor
  · rintro ⟨body, hbody, heq⟩
    cases body with
    | nil =>
      obtain ⟨rfl, rfl⟩ := List.cons.inj heq
      rfl
    | cons c body =>
      obtain ⟨rfl, rfl⟩ := List.cons.inj heq
      have hb : b ≠ Byte.newline := fun h => hbody (List.mem_cons.mpr (.inl h.symm))
      rw [if_neg hb]
      exact ⟨body, fun h => hbody (List.mem_cons_of_mem _ h), rfl⟩
  · split
    · rintro rfl
      exact ⟨[], List.not_mem_nil, by rw [List.nil_append]; congr⟩
    · rename_i hb
      rintro ⟨body, hbody, rfl⟩
      exact ⟨b :: body, fun h => (List.mem_cons.mp h).elim (fun h => hb h.symm) hbody, rfl⟩

/-- A line goes on behind a byte that is no newline. -/
theorem IsLine.of_cons {b : Byte} {rest : Bytes} (hline : IsLine (b :: rest))
    (hb : b ≠ Byte.newline) : IsLine rest := by
  rwa [isLine_cons, if_neg hb] at hline

theorem IsLine.tail {b c : Byte} {rest : Bytes} (hline : IsLine (b :: c :: rest)) :
    IsLine (c :: rest) := by
  refine hline.of_cons fun hb => ?_
  rw [isLine_cons, if_pos hb] at hline
  cases hline

theorem not_isLine_nil : ¬ IsLine [] := by
  rintro ⟨body, -, hnil⟩
  exact List.append_ne_nil_of_right_ne_nil _ (List.cons_ne_nil _ _) hnil.symm

/-- What is left of a line is a line, if anything is. -/
theorem IsLine.drop {line : Bytes} (hline : IsLine line) (n : Nat) :
    IsLine (line.drop n) ∨ line.drop n = [] := by
  induction line generalizing n with
  | nil => exact absurd hline not_isLine_nil
  | cons b rest ih =>
    cases n with
    | zero => exact .inl hline
    | succ n =>
      rw [isLine_cons] at hline
      rw [List.drop_succ_cons]
      split at hline
      · exact .inr (by rw [hline, List.drop_nil])
      · exact ih hline n

/-- A line of one byte is a newline. -/
theorem IsLine.eq_newline {b : Byte} (hline : IsLine [b]) : b = Byte.newline := by
  by_cases hb : b = Byte.newline
  · exact hb
  · exact absurd (hline.of_cons hb) not_isLine_nil

theorem length_terminated_le (line : Bytes) : (Scan.terminated line).length ≤ line.length + 1 := by
  rw [Scan.terminated]
  split
  · exact Nat.le_succ _
  · exact Nat.le_of_eq List.length_append

/-- A line has its newline already. -/
theorem terminated_of_isLine {line : Bytes} (hline : IsLine line) :
    Scan.terminated line = line := by
  obtain ⟨body, -, rfl⟩ := hline
  rw [Scan.terminated, List.getLast?_concat, if_pos rfl]

/-- A line there is room for is cut off as a whole. -/
theorem firstLine_of_isLine {line : Bytes} {room : Nat} (more : Bytes) (hline : IsLine line)
    (hroom : line.length ≤ room) : firstLine room (line ++ more) = (line, more) := by
  induction line generalizing room with
  | nil => exact absurd hline not_isLine_nil
  | cons b rest ih =>
    rw [List.cons_append, firstLine]
    by_cases hb : b = Byte.newline
    · rw [isLine_cons, if_pos hb] at hline
      rw [if_pos (.inl hb), hline, List.nil_append]
    · have hrest := hline.of_cons hb
      have hpos : rest ≠ [] := fun h => not_isLine_nil (h ▸ hrest)
      have hlength := List.length_pos_iff.mpr hpos
      rw [List.length_cons] at hroom
      rw [if_neg (not_or.mpr ⟨hb, by omega⟩), ih hrest (by omega)]

/-- **Any lines are the logical lines** of the text they make up, where
there is room for each of them. -/
theorem logicalLines_flatten {limit : Nat} {lines : List Bytes}
    (hlines : ∀ line ∈ lines, IsLine line) (hroom : ∀ line ∈ lines, line.length ≤ limit) :
    logicalLines limit lines.flatten = lines := by
  induction lines with
  | nil => exact logicalLines_nil limit
  | cons line lines ih =>
    obtain ⟨hline, hothers⟩ := List.forall_mem_cons.mp hlines
    obtain ⟨hfits, hrest⟩ := List.forall_mem_cons.mp hroom
    have hcut := firstLine_of_isLine lines.flatten hline (Nat.le_trans hfits (Nat.le_max_left _ 1))
    cases line with
    | nil => exact absurd hline not_isLine_nil
    | cons b rest =>
      rw [List.cons_append] at hcut
      rw [List.flatten_cons, List.cons_append, logicalLines_cons, hcut, ih hothers hrest,
        terminated_of_isLine hline]

/-- What a text is cut into first is a line, once it has its newline. -/
theorem isLine_firstLine (room : Nat) (text : Bytes) :
    IsLine (Scan.terminated (firstLine room text).1) := by
  have hcons {b : Byte} (hb : b ≠ Byte.newline) (piece : Bytes) :
      Scan.terminated (b :: piece) = b :: Scan.terminated piece := by
    cases piece with
    | nil => rw [Scan.terminated, if_neg (by simpa using hb)]; rfl
    | cons c piece => simp only [Scan.terminated, List.getLast?_cons_cons]; split <;> rfl
  induction text generalizing room with
  | nil => exact ⟨[], List.not_mem_nil, rfl⟩
  | cons b rest ih =>
    by_cases hb : b = Byte.newline
    · exact ⟨[], List.not_mem_nil, by simp [firstLine, hb, Scan.terminated]⟩
    have hline (piece : Bytes) (hpiece : IsLine (Scan.terminated piece)) :
        IsLine (Scan.terminated (b :: piece)) := by
      rw [hcons hb, isLine_cons, if_neg hb]
      exact hpiece
    rw [firstLine]
    split
    · exact hline [] ⟨[], List.not_mem_nil, rfl⟩
    · exact hline _ (ih (room - 1))

/-- **Logical lines are lines.** -/
theorem isLine_of_mem_logicalLines {limit : Nat} {text line : Bytes}
    (hline : line ∈ logicalLines limit text) : IsLine line := by
  obtain ⟨piece, hpiece, rfl⟩ := List.mem_map.mp hline
  fun_induction pieces limit text with
  | case1 => cases hpiece
  | case2 b rest ih =>
    rcases List.mem_cons.mp hpiece with rfl | hrest
    · exact isLine_firstLine _ _
    · exact ih hrest (List.mem_map.mpr ⟨piece, hrest, rfl⟩)

/-- A logical line fits the limit, its newline aside. -/
theorem length_le_of_mem_logicalLines {limit : Nat} {text line : Bytes}
    (hline : line ∈ logicalLines limit text) : line.length ≤ max limit 1 + 1 := by
  obtain ⟨piece, hpiece, rfl⟩ := List.mem_map.mp hline
  fun_induction pieces limit text with
  | case1 => cases hpiece
  | case2 b rest ih =>
    rcases List.mem_cons.mp hpiece with rfl | hrest
    · have hroom : 0 < max limit 1 := by omega
      have hfirst := length_firstLine_le hroom (b :: rest)
      have hended := length_terminated_le (firstLine (max limit 1) (b :: rest)).1
      omega
    · exact ih hrest (List.mem_map.mpr ⟨piece, hrest, rfl⟩)

end Bytes

/-! ## Chunks have no say -/

namespace Feed

/-- What a chunk is cut into, with more text to come after it: a cut that
ends neither at a newline nor for want of room goes on in that text. -/
theorem firstLine_append (taken : Bytes) {room : Nat} (hroom : 0 < room) (chunk more : Bytes) :
    (taken.reverse ++ (Bytes.firstLine room (chunk ++ more)).1,
        (Bytes.firstLine room (chunk ++ more)).2) =
      let cut := cutFrom taken room chunk
      if cut.ended || cut.taken.length = taken.length + room then (cut.taken, cut.rest ++ more)
      else
        let next := Bytes.firstLine (taken.length + room - cut.taken.length) more
        (cut.taken ++ next.1, next.2) := by
  induction chunk generalizing taken room with
  | nil =>
    have hlength : ¬ room = 0 := by omega
    simp [cutFrom, hlength]
  | cons b rest ih =>
    obtain ⟨room, rfl⟩ : ∃ n, room = n + 1 := ⟨room - 1, by omega⟩
    by_cases hb : b = Byte.newline
    · simp [cutFrom, Bytes.firstLine, hb]
    · rcases Nat.eq_zero_or_pos room with rfl | hpos
      -- the room ends with this byte, whatever comes after it
      · cases rest <;> simp [cutFrom, Bytes.firstLine, hb]
      · have hshort : ¬ room + 1 ≤ 1 := by omega
        have hrest := ih (b :: taken) hpos
        simp only [List.reverse_cons, List.append_assoc, List.cons_append, List.nil_append,
          List.length_cons, Nat.add_right_comm _ 1 room] at hrest
        simp only [cutFrom, Bytes.firstLine, List.cons_append, hb, hshort, or_self, if_false]
        exact hrest

/-- A cut takes no more bytes than there is room for. -/
theorem length_taken_cutFrom (taken : Bytes) (room : Nat) (chunk : Bytes) :
    (cutFrom taken room chunk).taken.length ≤ taken.length + room := by
  induction chunk generalizing taken room with
  | nil => simp [cutFrom]
  | cons b rest ih =>
    cases room with
    | zero => simp [cutFrom]
    | succ room =>
      simp only [cutFrom]
      split
      · simp only [List.length_reverse, List.length_cons]
        omega
      · have := ih (b :: taken) room
        simp only [List.length_cons] at this
        omega

/-- **A line does not depend on the chunks** it arrives in: it is cut off
the text they make together. -/
theorem cutLine_flatten {room : Nat} (hroom : 0 < room) (feed : Feed) :
    ((cutLine room feed).1, (cutLine room feed).2.flatten) =
      Bytes.firstLine room feed.flatten := by
  induction feed generalizing room with
  | nil => rfl
  | cons chunk feed ih =>
    have hcut := firstLine_append [] hroom chunk feed.flatten
    simp only [List.reverse_nil, List.nil_append, List.length_nil, Nat.zero_add] at hcut
    have htaken := length_taken_cutFrom [] room chunk
    rw [List.flatten_cons, ← Prod.eta (Bytes.firstLine room (chunk ++ feed.flatten)), hcut,
      cutLine]
    split
    · rfl
    · rename_i hgo
      simp only [Bool.or_eq_true, decide_eq_true_eq, not_or, Bool.not_eq_true] at hgo
      simp only [List.length_nil, Nat.zero_add] at htaken
      -- the chunk is used up, and the line goes on in what room is left
      rw [← ih (by omega)]

theorem readLine_flatten (limit : Nat) (feed : Feed) :
    ((readLine limit feed).1, (readLine limit feed).2.flatten) =
      Bytes.firstLine (max limit 1) feed.flatten :=
  cutLine_flatten (by omega) feed

end Feed

end BasicLexer
