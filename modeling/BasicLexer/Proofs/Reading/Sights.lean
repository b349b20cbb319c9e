import BasicLexer.Proofs.Reading.Visible

/-!
# Reading — what is shown ahead, and where

Reading on from a head shows bytes at columns: `Head.sights`. A byte that
is taken back is shown again, at the same column (`Head.sights_retract_next`),
so a head that looked one byte too far shows what it showed before. What
a reader does is then a matter of these sights alone, as `Reader.Ends`
states it, and the readers of one byte take the first sight or leave it.
-/

namespace BasicLexer

/-- Bytes shown one after another, each with its column. -/
abbrev Shown := List (Byte × Nat)

/-- The bytes that are shown, wherever they are. -/
def Shown.bytes (shown : Shown) : Bytes := shown.map Prod.fst

@[simp] theorem Shown.bytes_nil : Shown.bytes [] = [] := rfl

@[simp] theorem Shown.bytes_cons (b : Byte) (column : Nat) (rest : Shown) :
    Shown.bytes ((b, column) :: rest) = b :: rest.bytes := rfl

@[simp] theorem Shown.bytes_drop (n : Nat) (shown : Shown) :
    Shown.bytes (shown.drop n) = shown.bytes.drop n :=
  List.map_drop

/-- Dropping as many elements as a class has in front drops these. -/
theorem drop_takeWhile {α : Type} (p : α → Bool) (list : List α) :
    list.drop (list.takeWhile p).length = list.dropWhile p :=
  calc list.drop (list.takeWhile p).length
    _ = (list.takeWhile p ++ list.dropWhile p).drop (list.takeWhile p).length := by
      rw [List.takeWhile_append_dropWhile]
    _ = list.dropWhile p := List.drop_left

/-- So does dropping as many sights as there are bytes of a class. -/
theorem Shown.drop_takeWhile (p : Byte → Bool) (shown : Shown) :
    shown.drop (shown.bytes.takeWhile p).length = shown.dropWhile fun sight => p sight.1 := by
  rw [bytes, List.takeWhile_map, List.length_map, BasicLexer.drop_takeWhile]
  rfl

/-- A byte that is seen stands behind what was passed over to see it, and
is seen at once from where it stands. -/
theorem Sight.split_of_byte {inComment : Bool} {passed reach : Nat} {rest : Bytes} {b : Byte}
    (hsight : ofRest inComment passed rest = .byte b reach) :
    ∃ skipped after, rest = skipped ++ b :: after ∧ reach = passed + skipped.length + 1 ∧
      ∀ from', ofRest false from' (b :: after) = .byte b (from' + 1) := by
  fun_induction ofRest inComment passed rest with
  | case1 | case2 | case5 | case7 => cases hsight
  | case3 passed c d rest _ ih | case8 passed c d rest _ _ ih =>
    obtain ⟨skipped, after, rfl, rfl, hfrom⟩ := ih hsight
    exact ⟨c :: d :: skipped, after, rfl, by simp only [List.length_cons]; omega, hfrom⟩
  | case4 passed c d rest _ ih =>
    obtain ⟨skipped, after, hrest, rfl, hfrom⟩ := ih hsight
    exact ⟨c :: skipped, after, by rw [hrest, List.cons_append],
      by simp only [List.length_cons]; omega, hfrom⟩
  | case6 passed c =>
    cases hsight
    exact ⟨[], [], rfl, rfl, fun _ => rfl⟩
  | case9 passed c d rest hline hblock =>
    cases hsight
    exact ⟨[], d :: rest, rfl, rfl, fun _ => by rw [ofRest, if_neg hline, if_neg hblock]⟩

namespace Head

/-! ## Taking back a byte -/

/-- A byte that is seen is read, and the head is right behind it. -/
theorem next_of_sight {h : Head} {skipped after : Bytes} {b : Byte}
    (hahead : h.ahead = skipped ++ b :: after)
    (hsight : Sight.ofRest h.inComment 0 h.ahead = .byte b (skipped.length + 1)) :
    h.next = (some b, { h with
      behind := b :: (skipped.reverse ++ h.behind)
      ahead := after
      column := h.column + skipped.length + 1
      inComment := false
      lastRead := .consumed }) := by
  have hsplit : h.ahead = (skipped ++ [b]) ++ after := by
    rw [hahead, List.append_assoc, List.singleton_append]
  have hreach : skipped.length + 1 = (skipped ++ [b]).length := by
    rw [List.length_append, List.length_singleton]
  rw [next, hsight]
  dsimp only
  rw [hreach, forward_of_append hsplit]
  simp [Nat.add_assoc]

/-- Reading a byte leaves the head right behind it, wherever it was, and
it would be read at once from there. -/
theorem next_of_some {h : Head} {b : Byte} (hnext : h.next.1 = some b) :
    ∃ skipped after, h.ahead = skipped ++ b :: after ∧
      (∀ passed, Sight.ofRest false passed (b :: after) = .byte b (passed + 1)) ∧
      h.next.2 =
        { h with
          behind := b :: (skipped.reverse ++ h.behind)
          ahead := after
          column := h.column + skipped.length + 1
          inComment := false
          lastRead := .consumed } := by
  cases hsight : Sight.ofRest h.inComment 0 h.ahead with
  | exhausted | hidden =>
    rw [next, hsight] at hnext
    cases hnext
  | byte c reach =>
    obtain ⟨skipped, after, hahead, hreach, hfrom⟩ := Sight.split_of_byte hsight
    have hread := next_of_sight hahead (by rw [hsight, hreach, Nat.zero_add])
    rw [hread] at hnext ⊢
    cases hnext
    exact ⟨skipped, after, hahead, hfrom, rfl⟩

/-- **A byte taken back is read again**, and the head is then where it was
before. -/
theorem next_retract_next {h : Head} {b : Byte} (hnext : h.next.1 = some b) :
    h.next.2.retract.next = (some b, h.next.2) := by
  obtain ⟨skipped, after, -, hfrom, hmoved⟩ := next_of_some hnext
  rw [hmoved]
  simp only [retract, List.tail_cons, List.head?_cons, Option.toList_some, List.cons_append,
    List.nil_append, Nat.add_sub_cancel, next, hfrom 0, forward]
  rfl

/-- At the end of the line nothing more is read. -/
theorem next_of_ahead_nil {h : Head} (hahead : h.ahead = []) : h.next.1 = none := by
  unfold next
  rw [hahead]
  cases h.inComment <;> rfl

/-! ## Sights -/

/-- The bytes that reading on from a head shows, each with its column. -/
def sights (h : Head) : Shown :=
  match _hnext : h.next.1 with
  | some b => (b, h.next.2.column - 1) :: h.next.2.sights
  | none => []
  termination_by h.ahead.length
  decreasing_by exact length_ahead_next _hnext

theorem sights_of_some {h : Head} {b : Byte} (hnext : h.next.1 = some b) :
    h.sights = (b, h.next.2.column - 1) :: h.next.2.sights := by
  rw [sights]
  split
  · rename_i c hc
    rw [hnext] at hc
    cases hc
    rfl
  · rename_i hc
    rw [hnext] at hc
    cases hc

theorem sights_of_none {h : Head} (hnext : h.next.1 = none) : h.sights = [] := by
  rw [sights]
  split
  · rename_i c hc
    rw [hnext] at hc
    cases hc
  · rfl

/-- The sights are the visible bytes. -/
theorem bytes_sights (h : Head) : h.sights.bytes = h.visible := by
  fun_induction sights h with
  | case1 h b hnext ih => rw [visible_of_some hnext, Shown.bytes_cons, ih]
  | case2 h hnext => rw [visible_of_none hnext, Shown.bytes_nil]

/-- **What was read and taken back is shown as before.** -/
theorem sights_retract_next (h : Head) : h.next.2.retract.sights = h.sights := by
  cases hnext : h.next.1 with
  | some b =>
    have hagain := next_retract_next hnext
    have hsome : h.next.2.retract.next.1 = some b := by rw [hagain]
    rw [sights_of_some hsome, hagain, sights_of_some hnext]
  | none =>
    have hlast := lastRead_next h
    rw [hnext] at hlast
    rw [retract_of_atEnd hlast, sights_of_none hnext,
      sights_of_none (next_of_ahead_nil (ahead_next_of_none hnext))]

/-- What is noted of a token is no matter to what is shown. -/
theorem next_noted (h : Head) (start : Nat) :
    next { h with tokenStart := start } = (h.next.1, { h.next.2 with tokenStart := start }) := by
  unfold next
  dsimp only
  split <;> rfl

theorem sights_noted (h : Head) (start : Nat) :
    sights { h with tokenStart := start } = h.sights := by
  fun_induction sights h with
  | case1 h b hnext ih =>
    have hnoted : (next { h with tokenStart := start }).1 = some b := by rw [next_noted, hnext]
    rw [sights_of_some hnoted, next_noted, ih]
  | case2 h hnext => exact sights_of_none (by rw [next_noted, hnext])

end Head

namespace Reader

variable {α β : Type}

/-! ## Readers and what is shown -/

/-- How a run of a reader ends: in a value with the sights given still
ahead, or in a failure of the cause given. -/
def Ends (run : EStateM.Result (Failure Cause) Head α) : Except Cause (α × Shown) → Prop
  | .ok (a, rest) => ∃ h', run = .ok a h' ∧ h'.sights = rest
  | .error cause => ∃ h', run = .error (.reported cause) h'

theorem ends_pure (a : α) (h : Head) : Ends ((pure a : Reader α) h) (.ok (a, h.sights)) :=
  ⟨h, rfl, rfl⟩

theorem ends_fail (cause : Cause) (h : Head) :
    Ends ((Reader.fail cause : Reader α) h) (.error cause) :=
  ⟨h, rfl⟩

section Sequencing

variable {x : Reader α} {f : α → Reader β} {h : Head}

/-- What comes after a value goes on from the sights left. -/
theorem Ends.bind {a : α} {rest : Shown} {outcome : Except Cause (β × Shown)}
    (hx : Ends (x h) (.ok (a, rest)))
    (hf : ∀ h', h'.sights = rest → Ends (f a h') outcome) : Ends ((x >>= f) h) outcome := by
  obtain ⟨h', hrun, hrest⟩ := hx
  rw [bind_of_ok hrun]
  exact hf h' hrest

/-- Nothing comes after a failure. -/
theorem Ends.bind_error {cause : Cause} (hx : Ends (x h) (.error cause)) :
    Ends ((x >>= f) h) (.error cause) := by
  obtain ⟨h', hrun⟩ := hx
  exact ⟨h', bind_of_error hrun⟩

end Sequencing

/-- A run that ends in a value leaves the sights of its head. -/
theorem Ends.eq_ok {a : α} {h : Head} {outcome : Except Cause (α × Shown)}
    (hends : Ends (.ok a h) outcome) : outcome = .ok (a, h.sights) := by
  cases outcome with
  | error cause =>
    obtain ⟨h', hrun⟩ := hends
    cases hrun
  | ok found =>
    obtain ⟨h', hrun, hrest⟩ := hends
    cases hrun
    rw [hrest]

theorem ends_ok {a b : α} {h : Head} {rest : Shown} :
    Ends (.ok a h) (.ok (b, rest)) ↔ a = b ∧ h.sights = rest := by
  constructor
  · rintro ⟨h', hrun, hrest⟩
    cases hrun
    exact ⟨rfl, hrest⟩
  · rintro ⟨rfl, hrest⟩
    exact ⟨h, rfl, hrest⟩

/-! ## Readers of one byte -/

/-- What a function that accepts bytes makes of the first sight, and the
sights left: a byte that is not accepted stays. -/
def takeFirst (accepts : Byte → Option α) : Shown → Option α × Shown
  | [] => (none, [])
  | (b, column) :: rest =>
    match accepts b with
    | some a => (some a, rest)
    | none => (none, (b, column) :: rest)

/-- It goes by the first byte. -/
theorem takeFirst_eq (accepts : Byte → Option α) (shown : Shown) :
    takeFirst accepts shown =
      (shown.bytes.head?.bind accepts,
        if (shown.bytes.head?.bind accepts).isSome then shown.tail else shown) := by
  match shown with
  | [] => rfl
  | (b, column) :: rest => cases ha : accepts b <;> simp [takeFirst, ha]

/-- **Reading a byte if it is accepted** takes the first sight or leaves
it. -/
theorem ends_nextIf (accepts : Byte → Option α) (h : Head) :
    Ends (nextIf accepts h) (.ok (takeFirst accepts h.sights)) := by
  have hback := Head.sights_retract_next h
  rw [nextIf_apply, ends_ok]
  cases hnext : h.next.1 with
  | none =>
    rw [Head.sights_of_none hnext] at hback ⊢
    exact ⟨rfl, hback⟩
  | some b =>
    rw [Head.sights_of_some hnext] at hback ⊢
    cases ha : accepts b <;> simp [takeFirst, ha, hback]

/-- A byte that was accepted was the first sight. -/
theorem sights_of_nextIf_some {accepts : Byte → Option α} {h h' : Head} {a : α}
    (hstep : nextIf accepts h = .ok (some a) h') :
    ∃ b column, h.sights = (b, column) :: h'.sights ∧ accepts b = some a := by
  have hends := ends_nextIf accepts h
  rw [hstep, ends_ok] at hends
  match hsights : h.sights with
  | [] => simp [hsights, takeFirst] at hends
  | (b, column) :: rest =>
    cases ha : accepts b with
    | none => simp [hsights, takeFirst, ha] at hends
    | some c =>
      simp only [hsights, takeFirst, ha, Option.some.injEq] at hends
      obtain ⟨rfl, rfl⟩ := hends
      exact ⟨b, column, rfl, ha⟩

/-- Where none was, all sights are left. -/
theorem sights_of_nextIf_none {accepts : Byte → Option α} {h h' : Head}
    (hstep : nextIf accepts h = .ok none h') :
    h'.sights = h.sights ∧ ∀ sight ∈ h.sights.head?, accepts sight.1 = none := by
  have hends := ends_nextIf accepts h
  rw [hstep, ends_ok] at hends
  match hsights : h.sights with
  | [] => simpa [hsights, takeFirst] using hends
  | (b, column) :: rest =>
    cases ha : accepts b with
    | none => simpa [hsights, takeFirst, ha] using hends
    | some c => simp [hsights, takeFirst, ha] at hends

/-- Skipping blanks drops the blank sights and takes the one after
them. -/
theorem dropWhile_sights (h : Head) :
    h.sights.dropWhile (fun sight => sight.1.isBlank) =
      match (skipBlanksFrom h).1 with
      | some b => (b, (skipBlanksFrom h).2.column - 1) :: (skipBlanksFrom h).2.sights
      | none => [] := by
  fun_induction skipBlanksFrom h with
  | case1 h b hnext hblank ih =>
    rw [Head.sights_of_some hnext, List.dropWhile_cons, if_pos hblank, ih]
  | case2 h b hnext hblank =>
    rw [Head.sights_of_some hnext, List.dropWhile_cons, if_neg hblank]
  | case3 h hnext => rw [Head.sights_of_none hnext, List.dropWhile_nil]

/-- The byte that blanks are skipped for is none. -/
theorem isBlank_of_skipBlanksFrom {h h' : Head} {b : Byte}
    (hskip : skipBlanksFrom h = (some b, h')) : b.isBlank = false := by
  fun_induction skipBlanksFrom h with
  | case1 h c hnext hblank ih => exact ih hskip
  | case2 h c hnext hblank =>
    cases hskip
    exact Bool.eq_false_iff.mpr hblank
  | case3 h hnext => cases hskip

/-- The head is then right behind that byte and outside any comment. -/
theorem read_of_skipBlanksFrom {h h' : Head} {b : Byte}
    (hskip : skipBlanksFrom h = (some b, h')) : 0 < h'.column ∧ h'.inComment = false := by
  fun_induction skipBlanksFrom h with
  | case1 h c hnext hblank ih => exact ih hskip
  | case2 h c hnext hblank =>
    cases hskip
    obtain ⟨skipped, after, -, -, hmoved⟩ := Head.next_of_some hnext
    rw [hmoved]
    exact ⟨Nat.succ_pos _, rfl⟩
  | case3 h hnext => cases hskip

/-- Where only blanks are shown, skipping them leads to the end of the
line. -/
theorem ahead_skipBlanksFrom {h : Head} (hnone : (skipBlanksFrom h).1 = none) :
    (skipBlanksFrom h).2.ahead = [] := by
  fun_induction skipBlanksFrom h with
  | case1 h b hnext hblank ih => exact ih hnone
  | case2 h b hnext hblank => cases hnone
  | case3 h hnext => exact Head.ahead_next_of_none hnext

end Reader

end BasicLexer
