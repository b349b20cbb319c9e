import BasicLexer.Proofs.Input.Reliable

/-!
# Input — where the open files stand

A frame says of an open file which it is, how many of its lines were
fetched, and which are left. A fetch takes the next line off the first
frame that has one, counts it there, and drops the frames before it; all
frames behind are as they were (`Stack.fetchFrom_of_frames_cons`). Names
and numbers left aside, it takes the next of the lines left
(`Stack.fetch_of_some`).
-/

namespace BasicLexer

/-- Where an open file stands: its name, unless it is the program, the
number of its last line, and the lines it has left. -/
structure Frame where
  file : Option String
  number : Nat
  left : List Bytes

namespace Frame

/-- The frame after its next line was taken. -/
def advance (f : Frame) : Frame := { f with number := f.number + 1, left := f.left.tail }

end Frame

namespace Stack

/-- The frames of the files given and of the program below them, with
the names that the entries of files stand for. -/
def framesOf (limit : Nat) (name : Nat → String) (s : Stack) (files : List OpenFile) : List Frame :=
  files.map (fun f => ⟨some (name f.entry), f.line, f.source.lines limit⟩) ++
    [⟨none, s.programLine, s.program.lines limit⟩]

/-- The frames of the open files, from the innermost out. -/
def frames (limit : Nat) (name : Nat → String) (s : Stack) : List Frame :=
  framesOf limit name s s.includes

variable {limit : Nat} {name : Nat → String} {s : Stack}

/-- Frames go by the names of the files that are open. -/
theorem frames_congr {name' : Nat → String}
    (hname : ∀ entry ∈ s.includes.map OpenFile.entry, name' entry = name entry) :
    s.frames limit name' = s.frames limit name := by
  have hfile : ∀ f ∈ s.includes, name' f.entry = name f.entry := fun f hf =>
    hname _ (List.mem_map_of_mem hf)
  unfold frames framesOf
  congr 1
  exact List.map_congr_left fun f hf => by rw [hfile f hf]

/-- Either no frame has a line left, or there is a first that has. -/
theorem exists_first_left (frames : List Frame) :
    (∀ f ∈ frames, f.left = []) ∨ ∃ closed top below line rest,
      frames = closed ++ top :: below ∧ (∀ f ∈ closed, f.left = []) ∧ top.left = line :: rest := by
  induction frames with
  | nil => exact .inl nofun
  | cons f frames ih =>
    cases hleft : f.left with
    | cons line rest => exact .inr ⟨[], f, frames, line, rest, rfl, nofun, hleft⟩
    | nil =>
      rcases ih with hnone | ⟨closed, top, below, line, rest, rfl, hclosed, htop⟩
      · exact .inl (List.forall_mem_cons.mpr ⟨hleft, hnone⟩)
      · exact .inr ⟨f :: closed, top, below, line, rest, rfl,
          List.forall_mem_cons.mpr ⟨hleft, hclosed⟩, htop⟩

/-- Where no frame has a line left, a fetch finds none, and the frame of
the program is left. -/
theorem fetchFrom_of_frames_nil {files : List OpenFile} (hprogram : s.program.Reliable)
    (hfiles : ∀ f ∈ files, f.source.Reliable)
    (hnone : ∀ f ∈ framesOf limit name s files, f.left = []) :
    ∃ s', fetchFrom limit s files = (.ok [], s') ∧
      s'.frames limit name = [⟨none, s.programLine, []⟩] ∧ s'.includes = [] ∧ s'.Reliable := by
  induction files with
  | nil =>
    have hlines : s.program.lines limit = [] := hnone _ List.mem_cons_self
    obtain ⟨program, hfetch, hrest, hreliable⟩ := Source.fetch_of_lines_nil hprogram hlines
    refine ⟨{ program, programLine := s.programLine, includes := [] }, ?_, ?_, rfl,
      hreliable, by simp⟩
    · rw [fetchFrom, hfetch]
      rfl
    · simp [frames, framesOf, hrest]
  | cons top below ih =>
    have hlines : top.source.lines limit = [] := hnone _ List.mem_cons_self
    obtain ⟨source, hfetch, -, -⟩ :=
      Source.fetch_of_lines_nil (hfiles top List.mem_cons_self) hlines
    obtain ⟨s', hs', hrest⟩ := ih (fun f hf => hfiles f (List.mem_cons_of_mem _ hf))
      fun f hf => hnone f (List.mem_cons_of_mem _ hf)
    exact ⟨s', by rw [fetchFrom, hfetch]; exact hs', hrest⟩

/-- **A fetch takes the next line** off the first frame that has one, and
the frames before it are gone. -/
theorem fetchFrom_of_frames_cons {files : List OpenFile} (hprogram : s.program.Reliable)
    (hfiles : ∀ f ∈ files, f.source.Reliable) {closed below : List Frame} {top : Frame}
    {line : Bytes} {rest : List Bytes}
    (hframes : framesOf limit name s files = closed ++ top :: below)
    (hclosed : ∀ f ∈ closed, f.left = []) (htop : top.left = line :: rest) :
    ∃ b raw s', fetchFrom limit s files = (.ok (b :: raw), s') ∧
      Scan.terminated (b :: raw) = line ∧ s'.frames limit name = top.advance :: below ∧
      s'.includes.map OpenFile.entry <:+ files.map OpenFile.entry ∧ s'.Reliable := by
  induction files generalizing closed with
  | nil =>
    -- the only frame is that of the program, so it is the one with a line left
    have hone : closed = [] ∧ top = ⟨none, s.programLine, s.program.lines limit⟩ ∧ below = [] := by
      cases closed with
      | nil =>
        cases hframes
        exact ⟨rfl, rfl, rfl⟩
      | cons c closed =>
        have hlength := congrArg List.length hframes
        simp [framesOf] at hlength
    obtain ⟨rfl, rfl, rfl⟩ := hone
    obtain ⟨b, raw, program, hfetch, hline, hrest, hreliable⟩ :=
      Source.fetch_of_lines_cons hprogram htop
    refine ⟨b, raw, { program, programLine := s.programLine + 1, includes := [] }, ?_, hline, ?_,
      List.suffix_refl _, hreliable, by simp⟩
    · rw [fetchFrom, hfetch]
      rfl
    · simp only at htop
      simp [frames, framesOf, Frame.advance, hrest, htop]
  | cons first others ih =>
    have hfirst := hfiles first List.mem_cons_self
    have hothers : ∀ f ∈ others, f.source.Reliable :=
      fun f hf => hfiles f (List.mem_cons_of_mem _ hf)
    cases closed with
    | nil =>
      obtain ⟨rfl, rfl⟩ := List.cons.inj hframes
      obtain ⟨b, raw, source, hfetch, hline, hrest, hreliable⟩ :=
        Source.fetch_of_lines_cons hfirst htop
      refine ⟨b, raw,
        { s with includes := { first with source, line := first.line + 1 } :: others },
        by rw [fetchFrom, hfetch], hline, ?_, List.suffix_refl _, hprogram, ?_⟩
      · simp only at htop
        simp [frames, framesOf, Frame.advance, hrest, htop]
      · rintro f hf
        rcases List.mem_cons.mp hf with rfl | hf
        · exact hreliable
        · exact hothers f hf
    | cons c closed =>
      -- the first file has no line left and is closed
      obtain ⟨rfl, hbelow⟩ := List.cons.inj hframes
      have hlines : first.source.lines limit = [] := hclosed _ List.mem_cons_self
      obtain ⟨source, hfetch, -, -⟩ := Source.fetch_of_lines_nil hfirst hlines
      obtain ⟨b, raw, s', hs', hline, hrest, hentries, hreliable⟩ :=
        ih hothers hbelow fun f hf => hclosed f (List.mem_cons_of_mem _ hf)
      exact ⟨b, raw, s', by rw [fetchFrom, hfetch]; exact hs', hline, hrest,
        hentries.trans (List.suffix_cons _ _), hreliable⟩

/-! ## By the lines left -/

/-- The lines of a stack are those of its frames. -/
theorem lines_eq_left (limit : Nat) (name : Nat → String) (s : Stack) :
    s.lines limit = (s.frames limit name).map Frame.left := by
  simp [lines, linesOf, frames, framesOf]

/-- Where no open file has a line left, a fetch finds none. -/
theorem fetch_of_none (hs : s.Reliable) (hnext : nextLine (s.lines limit) = none) :
    ∃ s', s.fetch limit = (.ok [], s') := by
  have hlines := flatten_of_nextLine_none hnext
  rw [lines_eq_left limit (fun _ => ""), List.flatten_eq_nil_iff] at hlines
  obtain ⟨s', hfetch, -⟩ := fetchFrom_of_frames_nil hs.program hs.includes fun f hf =>
    hlines _ (List.mem_map_of_mem hf)
  exact ⟨s', hfetch⟩

/-- **A fetch takes the next line off the open files.** Files without
lines are closed on the way. -/
theorem fetch_of_some (hs : s.Reliable) {line : Bytes} {texts : List (List Bytes)}
    (hnext : nextLine (s.lines limit) = some (line, texts)) :
    ∃ b raw s', s.fetch limit = (.ok (b :: raw), s') ∧ Scan.terminated (b :: raw) = line ∧
      s'.lines limit = texts ∧ s'.Reliable := by
  -- the names of the files are no matter here
  let name : Nat → String := fun _ => ""
  rw [lines_eq_left limit name] at hnext
  rcases exists_first_left (s.frames limit name) with
    hnone | ⟨closed, top, below, first, rest, hframes, hclosed, htop⟩
  · have hlines : ((s.frames limit name).map Frame.left).flatten = [] :=
      List.flatten_eq_nil_iff.mpr (List.forall_mem_map.mpr hnone)
    rw [flatten_of_nextLine_some hnext] at hlines
    cases hlines
  · rw [hframes, List.map_append, nextLine_append _ (List.forall_mem_map.mpr hclosed),
      List.map_cons, htop] at hnext
    cases hnext
    obtain ⟨b, raw, s', hfetch, hline, hadvanced, -, hreliable⟩ :=
      fetchFrom_of_frames_cons hs.program hs.includes hframes hclosed htop
    refine ⟨b, raw, s', hfetch, hline, ?_, hreliable⟩
    rw [lines_eq_left limit name, hadvanced, List.map_cons, Frame.advance, htop]
    rfl

end Stack

namespace Scan

variable {s : Scanner}

/-- Where no open file has a line left, there is no next line. -/
theorem getLine_of_nextLine_none (hs : s.stack.Reliable)
    (hnext : Stack.nextLine (s.stack.lines s.options.maxLine) = none) :
    ∃ s', getLine s = .ok false s' := by
  obtain ⟨stack, hfetch⟩ := Stack.fetch_of_none hs hnext
  exact ⟨_, by rw [getLine, hfetch]⟩

/-- The next line is the next of those left. -/
theorem getLine_of_nextLine_some (hs : s.stack.Reliable) {line : Bytes}
    {below : List (List Bytes)}
    (hnext : Stack.nextLine (s.stack.lines s.options.maxLine) = some (line, below)) :
    ∃ stack, getLine s = .ok true { s with stack, head := s.head.load line, saved := none } ∧
      stack.lines s.options.maxLine = below ∧ stack.Reliable := by
  obtain ⟨b, raw, stack, hfetch, hraw, hbelow, hreliable⟩ := Stack.fetch_of_some hs hnext
  exact ⟨stack, by rw [getLine, hfetch, ← hraw], hbelow, hreliable⟩

end Scan

end BasicLexer
