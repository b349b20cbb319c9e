import BasicLexer.Proofs.Input.Reliable

/-!
# Input — the lines of sources that may fail

A fetch that fails takes nothing, and one that gives a line takes it off
the lines that its source has left, whichever other calls fail
(`Source.lines_of_fetch`). So a fetch from a stack takes a line off those
that the open files have left (`Stack.linesLeft_fetchFrom`), and there are
no more of these than bytes.
-/

namespace BasicLexer

namespace Bytes

/-- A text has no more lines than bytes. -/
theorem length_logicalLines_le (limit : Nat) (text : Bytes) :
    (logicalLines limit text).length ≤ text.length := by
  rw [logicalLines, List.length_map]
  fun_induction pieces limit text with
  | case1 => exact Nat.le_refl 0
  | case2 b rest ih =>
    have hcut := length_firstLine (max limit 1) (b :: rest)
    have hfirst := List.length_pos_iff.mpr (firstLine_cons_ne_nil (max limit 1) b rest)
    simp only [List.length_cons] at hcut ih ⊢
    omega

end Bytes

theorem Feed.size_eq (feed : Feed) : feed.size = feed.flatten.length := by
  induction feed with
  | nil => rfl
  | cons chunk feed ih =>
    rw [List.flatten_cons, List.length_append, ← ih]
    rfl

namespace Source

/-- A source at its first line. -/
def fresh (s : Source) : Source := { s with pending := s.contents }

/-- All logical lines of a source. -/
def allLines (limit : Nat) (s : Source) : List Bytes :=
  Bytes.logicalLines limit s.contents.flatten

variable {limit : Nat} {s s' : Source}

/-- A fetch that gives a line takes it off those left, whatever other
calls fail. -/
theorem lines_of_fetch {b : Byte} {raw : Bytes} (hfetch : s.fetch limit = (.ok (b :: raw), s')) :
    s.lines limit = Scan.terminated (b :: raw) :: s'.lines limit := by
  have hread := Feed.readLine_flatten limit s.pending
  rw [fetch] at hfetch
  cases hfault : s.fetchFault s.fetches with
  | some fault =>
    rw [hfault] at hfetch
    cases hfetch
  | none =>
    rw [hfault] at hfetch
    obtain ⟨hline, rfl⟩ := Prod.mk.inj hfetch
    rw [Except.ok.inj hline] at hread
    obtain ⟨hfirst, hrest⟩ := Prod.mk.inj hread
    cases htext : s.pending.flatten with
    | nil =>
      rw [htext] at hfirst
      cases hfirst
    | cons c text =>
      rw [htext] at hfirst hrest
      rw [lines, htext, Bytes.logicalLines_cons, ← hfirst, ← hrest, lines]

/-- A source that was rewound has all its lines left. -/
theorem lines_of_rewind {first : Unit} (hrewind : s.rewind = (.ok first, s')) :
    s'.lines limit = s.allLines limit := by
  rw [rewind] at hrewind
  split at hrewind <;> cases hrewind
  rfl

theorem allLines_ofBytes (limit : Nat) (contents : Bytes) :
    (ofBytes contents).allLines limit = Bytes.logicalLines limit contents := by
  rw [allLines, ofBytes, List.flatten_singleton]

theorem length_lines_le (limit : Nat) (s : Source) : (s.lines limit).length ≤ s.left := by
  rw [left, Feed.size_eq]
  exact Bytes.length_logicalLines_le limit _

end Source

namespace Stack

variable {limit : Nat} {s s' : Stack}

/-- How many lines the open files have left. -/
def linesLeft (limit : Nat) (s : Stack) : Nat := (s.lines limit).flatten.length

/-- A fetch that gives a line takes it off one of the files given, and what
was left above it is closed. -/
theorem lines_of_fetchFrom {files : List OpenFile} {b : Byte} {raw : Bytes}
    (hfetch : fetchFrom limit s files = (.ok (b :: raw), s')) :
    Scan.terminated (b :: raw) :: (s'.lines limit).flatten <:+
      (linesOf limit s.program files).flatten := by
  induction files with
  | nil =>
    rw [fetchFrom] at hfetch
    rcases hprogram : s.program.fetch limit with ⟨_ | line, program⟩ <;> rw [hprogram] at hfetch
    · cases hfetch
    · cases hfetch
      simp [lines, linesOf, Source.lines_of_fetch hprogram]
  | cons top below ih =>
    rw [fetchFrom] at hfetch
    rcases htop : top.source.fetch limit with ⟨_ | _ | ⟨c, line⟩, source⟩ <;> rw [htop] at hfetch
    · cases hfetch
    · simp only [linesOf, List.map_cons, List.cons_append, List.flatten_cons]
      exact (ih hfetch).trans (List.suffix_append _ _)
    · cases hfetch
      simp [lines, linesOf, Source.lines_of_fetch htop]

theorem linesLeft_fetchFrom {files : List OpenFile} {b : Byte} {raw : Bytes}
    (hfetch : fetchFrom limit s files = (.ok (b :: raw), s')) :
    s'.linesLeft limit < (linesOf limit s.program files).flatten.length :=
  (lines_of_fetchFrom hfetch).length_le

theorem linesLeft_le_left (limit : Nat) (s : Stack) : s.linesLeft limit ≤ s.left := by
  have hfiles (files : List OpenFile) :
      (files.map fun f => f.source.lines limit).flatten.length ≤ leftOf files := by
    induction files with
    | nil => exact Nat.le_refl 0
    | cons f files ih =>
      have hf := Source.length_lines_le limit f.source
      simp only [leftOf, total, List.map_cons, List.flatten_cons, List.length_append] at ih ⊢
      omega
  have hprogram := Source.length_lines_le limit s.program
  have hincludes := hfiles s.includes
  simp only [linesLeft, lines, linesOf, left, List.flatten_append, List.length_append,
    List.flatten_cons, List.flatten_nil, List.append_nil]
  omega

end Stack

/-- The table of the sources given by name, each at its first line. -/
def Resolver.ofSources (files : List (String × Source)) : Resolver :=
  .table (files.map fun f => (f.1, f.2.fresh))

end BasicLexer
