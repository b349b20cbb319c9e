import BasicLexer.Proofs.Input.LogicalLines

/-!
# Input — sources that never fail

A source none of whose calls fails hands out the logical lines of its
text, one at a fetch: `Source.fetch_of_lines_nil` and
`Source.fetch_of_lines_cons` say what a fetch gives, by the lines that the
source has left. The lines of a stack of such sources come from the
innermost out (`Stack.nextLine`).
-/

namespace BasicLexer

namespace Source

/-- A source is reliable if no call to it fails. -/
structure Reliable (s : Source) : Prop where
  fetch : ∀ n, s.fetchFault n = none
  rewind : ∀ n, s.rewindFault n = none

/-- The logical lines a source has left. -/
def lines (limit : Nat) (s : Source) : List Bytes := Bytes.logicalLines limit s.pending.flatten

theorem reliable_ofBytes (contents : Bytes) : (ofBytes contents).Reliable :=
  ⟨fun _ => rfl, fun _ => rfl⟩

theorem lines_ofBytes (limit : Nat) (contents : Bytes) :
    (ofBytes contents).lines limit = Bytes.logicalLines limit contents := by
  simp [lines, ofBytes]

variable {limit : Nat} {s : Source}

theorem fetch_of_reliable (limit : Nat) (hs : s.Reliable) :
    ∃ s', s.fetch limit = (.ok (Bytes.firstLine (max limit 1) s.pending.flatten).1, s') ∧
      s'.pending.flatten = (Bytes.firstLine (max limit 1) s.pending.flatten).2 ∧ s'.Reliable := by
  have hread := Feed.readLine_flatten limit s.pending
  refine ⟨{ s with fetches := s.fetches + 1, pending := (s.pending.readLine limit).2 }, ?_, ?_,
    ⟨hs.fetch, hs.rewind⟩⟩
  · rw [fetch, hs.fetch, ← hread]
  · rw [← hread]

/-- Without lines left, a source is exhausted, and it stays so. -/
theorem fetch_of_lines_nil (hs : s.Reliable) (hlines : s.lines limit = []) :
    ∃ s', s.fetch limit = (.ok [], s') ∧ s'.lines limit = [] ∧ s'.Reliable := by
  obtain ⟨s', hfetch, hpending, hs'⟩ := fetch_of_reliable limit hs
  cases htext : s.pending.flatten with
  | nil =>
    rw [htext] at hfetch hpending
    refine ⟨s', hfetch, ?_, hs'⟩
    rw [lines, hpending]
    exact Bytes.logicalLines_nil limit
  | cons b rest =>
    rw [lines, htext, Bytes.logicalLines_cons] at hlines
    cases hlines

/-- With lines left, it hands out the first of them. -/
theorem fetch_of_lines_cons (hs : s.Reliable) {line : Bytes} {rest : List Bytes}
    (hlines : s.lines limit = line :: rest) :
    ∃ b raw s', s.fetch limit = (.ok (b :: raw), s') ∧ Scan.terminated (b :: raw) = line ∧
      s'.lines limit = rest ∧ s'.Reliable := by
  obtain ⟨s', hfetch, hpending, hs'⟩ := fetch_of_reliable limit hs
  cases htext : s.pending.flatten with
  | nil =>
    rw [lines, htext, Bytes.logicalLines_nil] at hlines
    cases hlines
  | cons b text =>
    rw [htext] at hfetch hpending
    rw [lines, htext, Bytes.logicalLines_cons] at hlines
    obtain ⟨hline, hrest⟩ := List.cons.inj hlines
    obtain ⟨c, raw, hraw⟩ := List.exists_cons_of_ne_nil
      (Bytes.firstLine_cons_ne_nil (max limit 1) b text)
    rw [hraw] at hfetch hline
    exact ⟨c, raw, s', hfetch, hline, by rw [lines, hpending, hrest], hs'⟩

end Source

namespace Resolver

/-- A table of texts opens the text of a name. -/
theorem open?_ofTexts (files : List (String × Bytes)) (name : String) :
    (ofTexts files).open? name = (files.lookup name).map Source.ofBytes := by
  simp only [ofTexts, open?]
  induction files with
  | nil => rfl
  | cons f others ih =>
    obtain ⟨key, text⟩ := f
    simp only [List.map_cons, List.lookup_cons]
    cases name == key with
    | true => rfl
    | false => exact ih

end Resolver

namespace Stack

/-- A stack is reliable if every file open on it is. -/
structure Reliable (s : Stack) : Prop where
  program : s.program.Reliable
  includes : ∀ f ∈ s.includes, f.source.Reliable

/-- The lines that files have left, from the first file out, and then
those of the program below them. -/
def linesOf (limit : Nat) (program : Source) (files : List OpenFile) : List (List Bytes) :=
  files.map (fun f => f.source.lines limit) ++ [program.lines limit]

/-- The lines that the open files have left, from the innermost out. -/
def lines (limit : Nat) (s : Stack) : List (List Bytes) := linesOf limit s.program s.includes

/-- What open files have left are logical lines of texts. -/
theorem exists_text_of_mem_linesOf {limit : Nat} {program : Source} {files : List OpenFile}
    {line : Bytes} (hline : line ∈ (linesOf limit program files).flatten) :
    ∃ text, line ∈ Bytes.logicalLines limit text := by
  obtain ⟨texts, htexts, hline⟩ := List.mem_flatten.mp hline
  have hsource : ∃ source : Source, source.lines limit = texts := by
    rcases List.mem_append.mp htexts with hinclude | hprogram
    · obtain ⟨f, -, rfl⟩ := List.mem_map.mp hinclude
      exact ⟨f.source, rfl⟩
    · exact ⟨program, (List.mem_singleton.mp hprogram).symm⟩
  obtain ⟨source, rfl⟩ := hsource
  exact ⟨source.pending.flatten, hline⟩

theorem isLine_of_mem_linesOf {limit : Nat} {program : Source} {files : List OpenFile}
    {line : Bytes} (hline : line ∈ (linesOf limit program files).flatten) : line.IsLine :=
  have ⟨_, htext⟩ := exists_text_of_mem_linesOf hline
  Bytes.isLine_of_mem_logicalLines htext

/-- The next line of the first text that has one, and the lines left
after it. Texts without lines are passed over. -/
def nextLine : List (List Bytes) → Option (Bytes × List (List Bytes))
  | [] => none
  | [] :: below => nextLine below
  | (line :: rest) :: below => some (line, rest :: below)

/-- There is none where there is no line in any text. -/
theorem flatten_of_nextLine_none {texts : List (List Bytes)} (hnext : nextLine texts = none) :
    texts.flatten = [] := by
  fun_induction nextLine texts with
  | case1 => rfl
  | case2 below ih => exact ih hnext
  | case3 line rest below => cases hnext

/-- It is the first of the lines of all texts, and the others are left. -/
theorem flatten_of_nextLine_some {texts below : List (List Bytes)} {line : Bytes}
    (hnext : nextLine texts = some (line, below)) : texts.flatten = line :: below.flatten := by
  fun_induction nextLine texts with
  | case1 => cases hnext
  | case2 texts ih => exact ih hnext
  | case3 first rest texts =>
    cases hnext
    rfl

/-- Texts without lines make no difference to it. -/
theorem nextLine_append {closed : List (List Bytes)} (texts : List (List Bytes))
    (hclosed : ∀ lines ∈ closed, lines = []) : nextLine (closed ++ texts) = nextLine texts := by
  induction closed with
  | nil => rfl
  | cons lines closed ih =>
    obtain ⟨rfl, hothers⟩ := List.forall_mem_cons.mp hclosed
    exact ih hothers

end Stack

end BasicLexer
