import Mathlib
import BasicLexer.Proofs.Input.Frames
import BasicLexer.Proofs.Reading.WholeText

/-!
# Scanner — all lines, read to their ends

`Scan.readLines` fetches line after line and reads each to its end. What
it reads is what one pass over the lines, put together, leaves of them,
and after each line a block comment is open exactly if it is in the pass
(`Scan.readLines_eq_uncomment`). So a comment may go on over any number of
lines, and of files, for nothing is read of it on any of them.
-/

namespace BasicLexer

open Bytes

/-- No open file of a scanner fails, and these are the lines it will
fetch. -/
structure Scanner.Ahead (s : Scanner) (lines : List Bytes) : Prop where
  reliable : s.stack.Reliable
  lines : (s.stack.lines s.options.maxLine).flatten = lines

/-- What is ahead are lines. -/
theorem Scanner.Ahead.isLine {s : Scanner} {lines : List Bytes} (hahead : s.Ahead lines)
    {line : Bytes} (hline : line ∈ lines) : line.IsLine := by
  rw [← hahead.lines] at hline
  exact Stack.isLine_of_mem_linesOf hline

namespace Scanner.Ahead

variable {s : Scanner}

/-- Where no line is ahead, none is fetched. -/
theorem getLine_nil (hahead : s.Ahead []) : ∃ s', Scan.getLine s = .ok false s' := by
  have hnext : Stack.nextLine (s.stack.lines s.options.maxLine) = none := by
    cases hnext : Stack.nextLine (s.stack.lines s.options.maxLine) with
    | none => rfl
    | some found =>
      have hlines := hahead.lines
      rw [Stack.flatten_of_nextLine_some hnext] at hlines
      cases hlines
  exact Scan.getLine_of_nextLine_none hahead.reliable hnext

/-- The first line ahead is fetched, and then the others are ahead. -/
theorem getLine_cons {line : Bytes} {lines : List Bytes} (hahead : s.Ahead (line :: lines)) :
    ∃ stack, Scan.getLine s =
        .ok true { s with stack, head := s.head.load line, saved := none } ∧
      ∀ head, Scanner.Ahead { s with stack, head, saved := none } lines := by
  have hlines := hahead.lines
  cases hnext : Stack.nextLine (s.stack.lines s.options.maxLine) with
  | none =>
    rw [Stack.flatten_of_nextLine_none hnext] at hlines
    cases hlines
  | some found =>
    obtain ⟨first, below⟩ := found
    rw [Stack.flatten_of_nextLine_some hnext] at hlines
    obtain ⟨rfl, hbelow⟩ := List.cons.inj hlines
    obtain ⟨stack, hline, rfl, hreliable⟩ := Scan.getLine_of_nextLine_some hahead.reliable hnext
    exact ⟨stack, hline, fun _ => ⟨hreliable, hbelow⟩⟩

/-- So a line that is fetched is the first of those ahead. -/
theorem of_getLine {s' : Scanner} {lines : List Bytes} (hahead : s.Ahead lines)
    (hline : Scan.getLine s = .ok true s') :
    ∃ line rest stack, lines = line :: rest ∧
      s' = { s with stack, head := s.head.load line, saved := none } ∧
      ∀ head, Scanner.Ahead { s with stack, head, saved := none } rest := by
  cases lines with
  | nil =>
    obtain ⟨_, hend⟩ := hahead.getLine_nil
    rw [hend] at hline
    cases hline
  | cons line rest =>
    obtain ⟨stack, hfirst, hrest⟩ := hahead.getLine_cons
    rw [hfirst] at hline
    cases hline
    exact ⟨line, rest, stack, rfl, rfl, hrest⟩

/-- Before the first line is fetched, the logical lines of the program are
ahead. -/
theorem start (options : Options) (resolver : Resolver) (program : Bytes) :
    (Scanner.start options resolver (.ofBytes program)).Ahead
      (logicalLines options.maxLine program) where
  reliable := ⟨Source.reliable_ofBytes program, nofun⟩
  lines := by simp [Scanner.start, Stack.lines, Stack.linesOf, Source.lines_ofBytes]

end Scanner.Ahead

namespace Scan

/-- Read the line to its end: the bytes that are shown, until none is. -/
def readRest : Scan Bytes := reading fun h => .ok h.visible h.drained

/-- It is the loop over single reads. -/
theorem readRest_eq (s : Scanner) :
    readRest s = (do
      match ← reading Reader.next with
      | some b => return b :: (← readRest)
      | none => return []) s := by
  simp only [readRest, reading, Bind.bind, EStateM.bind, Reader.next]
  cases hnext : s.head.next.1 with
  | some b => rw [Head.visible_of_some hnext, Head.drained_of_some hnext]; rfl
  | none => rw [Head.visible_of_none hnext, Head.drained_of_none hnext]; rfl

/-- Fetch every line and read it to its end: what is read of each, and
whether a block comment is open after it. -/
def readLines (s : Scanner) :
    EStateM.Result (Failure Diagnostic) Scanner (List (Bytes × Bool)) :=
  match _hline : getLine s with
  | .ok true s₁ =>
    match _hrest : readRest s₁ with
    | .ok bytes s₂ =>
      match readLines s₂ with
      | .ok more s' => .ok ((bytes, s₂.head.inComment) :: more) s'
      | .error failure s' => .error failure s'
    | .error failure s' => .error failure s'
  | .ok false s' => .ok [] s'
  | .error failure s' => .error failure s'
  termination_by s.stack.left
  decreasing_by
    have hleft := left_getLine _hline
    cases _hrest
    exact hleft

theorem readLines_of_end {s s' : Scanner} (hline : getLine s = .ok false s') :
    readLines s = .ok [] s' := by
  rw [readLines]
  split <;> rename_i hagain <;> rw [hline] at hagain <;> cases hagain
  rfl

theorem readLines_of_line {s s₁ s' : Scanner} {more : List (Bytes × Bool)}
    (hline : getLine s = .ok true s₁)
    (hmore : readLines { s₁ with head := s₁.head.drained } = .ok more s') :
    readLines s = .ok ((s₁.head.visible, s₁.head.drained.inComment) :: more) s' := by
  rw [readLines]
  split <;> rename_i hagain <;> rw [hline] at hagain <;> cases hagain
  simp only [readRest, reading, hmore]

/-- The states that a pass over lines is in behind each of them. -/
def statesAfter (inComment : Bool) (lines : List Bytes) : List Bool :=
  (List.range lines.length).map fun n => (uncomment inComment (lines.take (n + 1)).flatten).2

theorem statesAfter_cons {inComment inComment' : Bool} {line shown : Bytes} (lines : List Bytes)
    (hline : ∀ more, uncomment inComment (line ++ more) =
      (shown ++ (uncomment inComment' more).1, (uncomment inComment' more).2)) :
    statesAfter inComment (line :: lines) = inComment' :: statesAfter inComment' lines := by
  have hnone : uncomment inComment' [] = ([], inComment') := by rw [uncomment]
  simp only [statesAfter, List.length_cons, List.range_succ_eq_map, List.map_cons, List.map_map,
    Function.comp_def, List.take_succ_cons, List.flatten_cons, hline, List.take_zero,
    List.flatten_nil, hnone]

/-- Reading all lines is the pass over them, line by line. -/
theorem readLines_of_ahead {s : Scanner} {lines : List Bytes} (hahead : s.Ahead lines) :
    ∃ read s', readLines s = .ok read s' ∧
      (read.map Prod.fst).flatten = (uncomment s.head.inComment lines.flatten).1 ∧
      read.map Prod.snd = statesAfter s.head.inComment lines := by
  induction lines generalizing s with
  | nil =>
    obtain ⟨s', hline⟩ := hahead.getLine_nil
    refine ⟨[], s', readLines_of_end hline, ?_, rfl⟩
    rw [List.flatten_nil, uncomment]
    rfl
  | cons line lines ih =>
    obtain ⟨stack, hline, hbelow⟩ := hahead.getLine_cons
    let h := s.head.load line
    have hshown (more : Bytes) : uncomment s.head.inComment (line ++ more) =
        (h.visible ++ (uncomment h.drained.inComment more).1,
          (uncomment h.drained.inComment more).2) :=
      Head.uncomment_line (h := h) more (.inl (hahead.isLine List.mem_cons_self))
    obtain ⟨read, s', hread, hbytes, hstates⟩ :=
      ih (s := { s with stack, head := h.drained, saved := none }) (hbelow h.drained)
    refine ⟨_, s', readLines_of_line hline hread, ?_, ?_⟩
    · rw [List.flatten_cons, hshown, List.map_cons, List.flatten_cons, hbytes]
    · rw [statesAfter_cons lines hshown, List.map_cons, hstates]

/-- **Line by line or all at once**: what is read of lines, each to its
end, is what one pass over them all leaves, the comment state behind each
line is that of the pass, and nothing that is read holds a comment. -/
theorem readLines_eq_uncomment {lines : List Bytes} (hlines : ∀ line ∈ lines, line.IsLine) :
    (∀ options resolver, (∀ line ∈ lines, line.length ≤ options.maxLine) →
      (Scanner.start options resolver (.ofBytes lines.flatten)).Ahead lines) ∧
    ∀ s : Scanner, s.Ahead lines → ∃ read s', readLines s = .ok read s' ∧
      (read.map Prod.fst).flatten = (uncomment s.head.inComment lines.flatten).1 ∧
      read.map Prod.snd = statesAfter s.head.inComment lines ∧
      Uncommented (read.map Prod.fst).flatten ∧
      uncomment false (read.map Prod.fst).flatten = ((read.map Prod.fst).flatten, false) := by
  refine ⟨fun options resolver hroom => ?_, fun s hahead => ?_⟩
  · refine ⟨⟨Source.reliable_ofBytes _, by simp [Scanner.start]⟩, ?_⟩
    have hsource : (Source.ofBytes lines.flatten).lines options.maxLine = lines := by
      rw [Source.lines_ofBytes, logicalLines_flatten hlines hroom]
    simp [Scanner.start, Stack.lines, Stack.linesOf, hsource]
  · obtain ⟨read, s', hread, hbytes, hstates⟩ := readLines_of_ahead hahead
    refine ⟨read, s', hread, hbytes, hstates, ?_, ?_⟩
    · rw [hbytes]
      exact uncommented_uncomment _ _
    · rw [hbytes]
      exact uncomment_uncomment _ _

/-- Lines with a comment over two of them, one that is closed by what
would open it again, and one to the end of its line: `a/*b`, `*/c//*d` and
`e/*/*/f`. -/
def commentedLines : List Bytes :=
  [[97, 47, 42, 98, 10], [42, 47, 99, 47, 47, 42, 100, 10], [101, 47, 42, 47, 42, 47, 102, 10]]

/-- What is read of them is `acef`, in one line. -/
theorem readLines_commentedLines :
    ∃ read s', readLines (Scanner.start {} (.ofTexts []) (.ofBytes commentedLines.flatten)) =
        .ok read s' ∧
      (read.map Prod.fst).flatten = [97, 99, 101, 102, 10] ∧
      read.map Prod.snd = [true, false, false] := by
  have hbodies : ∀ line ∈ commentedLines,
      Byte.newline ∉ line.dropLast ∧ line = line.dropLast ++ [Byte.newline] := by decide
  have hlines : ∀ line ∈ commentedLines, line.IsLine :=
    fun line hline => ⟨line.dropLast, hbodies line hline⟩
  obtain ⟨hstart, hread⟩ := readLines_eq_uncomment hlines
  obtain ⟨read, s', hrun, hbytes, hstates, -, -⟩ :=
    hread _ (hstart {} (.ofTexts []) (by decide))
  have hwhole : uncomment false commentedLines.flatten = ([97, 99, 101, 102, 10], false) := by cbv
  have hafter : statesAfter false commentedLines = [true, false, false] := by cbv
  refine ⟨read, s', hrun, ?_, ?_⟩
  · rw [hbytes]
    exact congrArg Prod.fst hwhole
  · rw [hstates]
    exact hafter

end Scan

end BasicLexer
