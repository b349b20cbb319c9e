import BasicLexer.Proofs.Input.Frames
import BasicLexer.Proofs.Input.Layout
import BasicLexer.Proofs.Input.LinesLeft
import Mathlib.Data.List.Forall2

/-!
# Input — editions of a text

Two sources are editions of one text if they fail at the same calls and
their texts have one layout: bytes may differ, but newlines stand in the
same places. They are fetched from in step (`Source.Edition.fetch`), and so
are stacks of them (`Stack.Edition.fetchFrom`). Which line a fetch takes is told by the
frames of the open files (`Stack.frames_of_fetchFrom`), whichever fetches fail.
-/

namespace BasicLexer

open Bytes

/-! ## Sources -/

/-- Another edition of a source: it fails where the source does, and in
its text newlines stand in the same places. -/
structure Source.Edition (a b : Source) : Prop where
  fetchFault : b.fetchFault = a.fetchFault
  rewindFault : b.rewindFault = a.rewindFault
  fetches : b.fetches = a.fetches
  rewinds : b.rewinds = a.rewinds
  contents : layout b.contents.flatten = layout a.contents.flatten
  pending : layout b.pending.flatten = layout a.pending.flatten

namespace Source

variable {limit : Nat} {a b s s' : Source}

theorem Edition.refl (a : Source) : a.Edition a := ⟨rfl, rfl, rfl, rfl, rfl, rfl⟩

/-- **Editions are fetched from in step.** -/
theorem Edition.fetch (limit : Nat) (hedition : a.Edition b) :
    (a.fetch limit).2.Edition (b.fetch limit).2 ∧
      ((∃ fault, (a.fetch limit).1 = .error fault ∧ (b.fetch limit).1 = .error fault) ∨
      ∃ line line', (a.fetch limit).1 = .ok line ∧ (b.fetch limit).1 = .ok line' ∧
        layout line' = layout line) := by
  have hsame : b.fetchFault b.fetches = a.fetchFault a.fetches := by
    rw [hedition.fetchFault, hedition.fetches]
  have hcount := congrArg (· + 1) hedition.fetches
  cases hfault : a.fetchFault a.fetches with
  | some fault =>
    simp only [Source.fetch, hsame, hfault]
    exact ⟨{ hedition with fetches := hcount }, .inl ⟨fault, rfl, rfl⟩⟩
  | none =>
    have hread := Feed.readLine_flatten limit a.pending
    have hread' := Feed.readLine_flatten limit b.pending
    obtain ⟨hfirst, hrest⟩ := layout_firstLine (max limit 1) hedition.pending
    rw [← hread, ← hread'] at hfirst hrest
    simp only [Source.fetch, hsame, hfault]
    exact ⟨{ hedition with fetches := hcount, pending := hrest }, .inr ⟨_, _, rfl, rfl, hfirst⟩⟩

/-- So are they rewound. -/
theorem Edition.rewind (hedition : a.Edition b) :
    a.rewind.2.Edition b.rewind.2 ∧ b.rewind.1 = a.rewind.1 := by
  have hsame : b.rewindFault b.rewinds = a.rewindFault a.rewinds := by
    rw [hedition.rewindFault, hedition.rewinds]
  have hcount := congrArg (· + 1) hedition.rewinds
  cases hfault : a.rewindFault a.rewinds with
  | some fault =>
    simp only [Source.rewind, hsame, hfault]
    exact ⟨{ hedition with rewinds := hcount }, trivial⟩
  | none =>
    simp only [Source.rewind, hsame, hfault]
    exact ⟨{ hedition with rewinds := hcount, pending := hedition.contents }, trivial⟩

/-- They have as many bytes left. -/
theorem Edition.left (hedition : a.Edition b) : b.left = a.left := by
  rw [Source.left, Source.left, Feed.size_eq, Feed.size_eq, length_eq_of_layout hedition.pending]

end Source

/-! ## Stacks -/

/-- Another edition of an open file, at the same line. -/
structure OpenFile.Edition (f g : OpenFile) : Prop where
  source : f.source.Edition g.source
  entry : g.entry = f.entry
  line : g.line = f.line

/-- Other editions of the open files, each at the same line. -/
structure Stack.Edition (s t : Stack) : Prop where
  program : s.program.Edition t.program
  programLine : t.programLine = s.programLine
  includes : List.Forall₂ OpenFile.Edition s.includes t.includes

namespace Stack

variable {limit : Nat} {s t s' : Stack}

namespace Edition

theorem active? (hedition : s.Edition t) : t.active? = s.active? := by
  have hfirst {files files' : List OpenFile} (h : List.Forall₂ OpenFile.Edition files files') :
      files'.head?.map OpenFile.entry = files.head?.map OpenFile.entry := by
    cases h with
    | nil => rfl
    | cons hfile _ => exact congrArg some hfile.entry
  exact hfirst hedition.includes

theorem line (hedition : s.Edition t) : t.line = s.line := by
  rw [Stack.line, Stack.line]
  rcases List.forall₂_iff_zip.mp hedition.includes with ⟨hlength, hfiles⟩
  cases hs : s.includes <;> cases ht : t.includes
  · exact hedition.programLine
  · simp [hs, ht] at hlength
  · simp [hs, ht] at hlength
  · exact (hfiles (by rw [hs, ht]; exact List.mem_cons_self)).line

theorem left (hedition : s.Edition t) : t.left = s.left := by
  have hfiles {files files' : List OpenFile} (h : List.Forall₂ OpenFile.Edition files files') :
      leftOf files' = leftOf files := by
    induction h with
    | nil => rfl
    | cons hfile _ ih =>
      simp only [leftOf, total, hfile.source.left] at ih ⊢
      rw [ih]
  rw [Stack.left, Stack.left, hedition.program.left, hfiles hedition.includes]

/-- **Stacks of editions are fetched from in step.** -/
theorem fetchFrom (limit : Nat) (hedition : s.Edition t) {files files' : List OpenFile}
    (hfiles : List.Forall₂ OpenFile.Edition files files') :
    (Stack.fetchFrom limit s files).2.Edition (Stack.fetchFrom limit t files').2 ∧
      ((∃ fault, (Stack.fetchFrom limit s files).1 = .error fault ∧
        (Stack.fetchFrom limit t files').1 = .error fault) ∨
      ∃ line line', (Stack.fetchFrom limit s files).1 = .ok line ∧
        (Stack.fetchFrom limit t files').1 = .ok line' ∧ layout line' = layout line) := by
  induction hfiles with
  | nil =>
    obtain ⟨hprogram, hfetch⟩ := hedition.program.fetch limit
    simp only [Stack.fetchFrom]
    rcases hp : s.program.fetch limit with ⟨first, p⟩
    rcases hp' : t.program.fetch limit with ⟨first', p'⟩
    rw [hp, hp'] at hfetch hprogram
    rcases hfetch with ⟨fault, rfl, rfl⟩ | ⟨line, line', rfl, rfl, hlayout⟩
    · exact ⟨⟨hprogram, hedition.programLine, .nil⟩, .inl ⟨fault, rfl, rfl⟩⟩
    · refine ⟨⟨hprogram, ?_, .nil⟩, .inr ⟨line, line', rfl, rfl, hlayout⟩⟩
      simp only [Stack.count, eq_nil_iff_of_layout hlayout, hedition.programLine]
  | @cons top top' below below' htop hbelow ih =>
    obtain ⟨hsource, hfetch⟩ := htop.source.fetch limit
    simp only [Stack.fetchFrom]
    rcases hp : top.source.fetch limit with ⟨first, p⟩
    rcases hp' : top'.source.fetch limit with ⟨first', p'⟩
    rw [hp, hp'] at hfetch hsource
    rcases hfetch with ⟨fault, rfl, rfl⟩ | ⟨line, line', rfl, rfl, hlayout⟩
    · exact ⟨⟨hedition.program, hedition.programLine,
        .cons ⟨hsource, htop.entry, htop.line⟩ hbelow⟩, .inl ⟨fault, rfl, rfl⟩⟩
    · cases line with
      | nil =>
        rw [(eq_nil_iff_of_layout hlayout).mpr rfl]
        exact ih
      | cons b line =>
        cases line' with
        | nil => cases hlayout
        | cons b' line' =>
          refine ⟨⟨hedition.program, hedition.programLine,
            .cons ⟨hsource, htop.entry, ?_⟩ hbelow⟩, .inr ⟨_, _, rfl, rfl, hlayout⟩⟩
          exact congrArg (· + 1) htop.line

end Edition

/-! ## The line that is taken -/

/-- **A line that is fetched** is the next of the first frame that has one,
whichever calls fail. -/
theorem frames_of_fetchFrom (name : Nat → String) {files : List OpenFile} {b : Byte}
    {raw : Bytes} (hfetch : fetchFrom limit s files = (.ok (b :: raw), s')) :
    ∃ closed top below, framesOf limit name s files = closed ++ top :: below ∧
      top.left = Scan.terminated (b :: raw) :: top.left.tail ∧
      s'.frames limit name = top.advance :: below ∧
      s'.includes.map OpenFile.entry <:+ files.map OpenFile.entry := by
  induction files with
  | nil =>
    rw [fetchFrom] at hfetch
    rcases hprogram : s.program.fetch limit with ⟨_ | line, program⟩ <;> rw [hprogram] at hfetch <;>
      cases hfetch
    have hlines := Source.lines_of_fetch hprogram
    refine ⟨[], _, [], rfl, ?_, ?_, List.suffix_refl _⟩
    · rw [hlines, List.tail_cons]
    · simp [frames, framesOf, Frame.advance, hlines, count]
  | cons first others ih =>
    rw [fetchFrom] at hfetch
    rcases htop : first.source.fetch limit with ⟨_ | _ | ⟨c, line⟩, source⟩ <;>
      rw [htop] at hfetch
    · cases hfetch
    · obtain ⟨closed, top, below, hframes, hleft, hadvanced, hentries⟩ := ih hfetch
      refine ⟨⟨some (name first.entry), first.line, first.source.lines limit⟩ :: closed, top, below,
        congrArg (List.cons _) hframes, hleft, hadvanced, hentries.trans (List.suffix_cons _ _)⟩
    · cases hfetch
      have hlines := Source.lines_of_fetch htop
      refine ⟨[], _, _, rfl, ?_, ?_, List.suffix_refl _⟩
      · dsimp only
        rw [hlines, List.tail_cons]
      · simp [frames, framesOf, Frame.advance, hlines]

end Stack

end BasicLexer
