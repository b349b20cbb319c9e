import BasicLexer.Proofs.Client.Origin
import BasicLexer.Proofs.Input.Editions
import BasicLexer.Proofs.Listing.Simulation
import BasicLexer.Proofs.Scanner.Deliveries

/-!
# Listings — other editions of a program

A listing takes of a line what it says to it (`Statement.ofLine`), and
nothing else. So another edition of the program and of its include files,
with the same number of bytes and the newlines in the same places, has the
same listing if every line that is fetched says there what it says here
(`Listing.make_edition`). The two listings are made in step, and
the second goes from line to line of its own files: `Scanner.Tracks`.
-/

namespace BasicLexer

open Scan

/-! ## Editions -/

namespace Scanner

/-- Another edition of all that a scanner may read, under the same
options: of the program, and of the file under every name, the files being
as large in all. -/
structure Edition (s t : Scanner) : Prop where
  options : t.options = s.options
  program : s.stack.program.Edition t.stack.program
  files : ∀ name, Option.Rel Source.Edition (s.resolver.open? name) (t.resolver.open? name)
  volume : t.resolver.volume = s.resolver.volume

theorem Edition.refl (s : Scanner) : s.Edition s where
  options := rfl
  program := .refl _
  files name := by
    cases s.resolver.open? name with
    | none => exact .none
    | some source => exact .some (.refl source)
  volume := rfl

/-- The logical lines of the program, or of the file under a name if there
is one. -/
def lines? (s : Scanner) : Option String → Option (List Bytes)
  | none => some (s.stack.program.allLines s.options.maxLine)
  | some name => (s.resolver.open? name).map (Source.lines s.options.maxLine)

/-- The line of a number in a file. -/
def line? (s : Scanner) (file : Option String) (number : Nat) : Option Bytes :=
  (s.lines? file).bind fun lines => lines[number - 1]?

end Scanner

namespace Listing

/-- The state in which a line was just fetched, after so many others of a
listing that goes on from a state. -/
inductive Fetches : Scanner → Scanner → Prop
  | next {s s₁ : Scanner} (hline : getLine s = .ok true s₁) : Fetches s s₁
  | later {s s₁ s₂ s₃ : Scanner} {tokens : List Token} (hline : getLine s = .ok true s₁)
      (hstatement : statement s₁ = .ok tokens s₂) (hrest : Fetches s₂ s₃) : Fetches s s₃

/-- The state in which a line was just fetched in the pass that makes a
listing. -/
def Fetched (s s₁ : Scanner) : Prop := ∃ begun, Scan.rewind s = .ok () begun ∧ Fetches begun s₁

end Listing

/-! ## Going from line to line -/

namespace Scanner

/-- A scanner goes by the lines of files: of every open file it has those
left that come after the last, and it finds the files under their names. -/
structure Tracks (all : Option String → Option (List Bytes)) (s : Scanner) : Prop where
  /-- Every open file has an entry among the files included. -/
  entries : ∀ entry ∈ s.stack.includes.map OpenFile.entry, entry < s.included.size
  frames : ∀ f ∈ s.frames, ∃ lines, all f.file = some lines ∧ f.left = lines.drop f.number
  files : ∀ name, all (some name) = (s.resolver.open? name).map (Source.lines s.options.maxLine)

namespace Tracks

variable {all : Option String → Option (List Bytes)} {s s₁ : Scanner}

/-- What a scanner reads of a line is no matter. -/
theorem of_head (htracks : s.Tracks all) (head : Head) : Tracks all { s with head } :=
  ⟨htracks.entries, htracks.frames, htracks.files⟩

/-- **A line that is fetched** is the line of its number in its file. -/
theorem getLine (htracks : s.Tracks all) (hline : Scan.getLine s = .ok true s₁) :
    s₁.Tracks all ∧ ∃ lines, all s₁.position.file = some lines ∧
      lines[s₁.position.line - 1]? = some s₁.head.line := by
  obtain ⟨b, raw, stack, hfetch, rfl⟩ := Scan.fetch_of_getLine hline
  obtain ⟨closed, top, below, hframes, htop, hadvanced, hentries⟩ :=
    Stack.frames_of_fetchFrom s.nameOf hfetch
  let s₁ : Scanner :=
    { s with stack, head := s.head.load (Scan.terminated (b :: raw)), saved := none }
  have hafter : s₁.frames = top.advance :: below := hadvanced
  have hmem {f : Frame} (hf : f ∈ top :: below) : f ∈ s.frames := by
    rw [Scanner.frames, Stack.frames, hframes]
    exact List.mem_append_right _ hf
  obtain ⟨lines, hlines, hleft⟩ := htracks.frames top (hmem List.mem_cons_self)
  rw [htop] at hleft
  have hthis : lines[top.number]? = some (Scan.terminated (b :: raw)) := by
    rw [← List.head?_drop, ← hleft, List.head?_cons]
  have hthose : top.left.tail = lines.drop (top.number + 1) := by
    rw [← List.tail_drop, ← hleft, List.tail_cons]
  refine ⟨⟨fun entry hentry => htracks.entries entry (hentries.subset hentry), ?_, htracks.files⟩,
    lines, ?_, ?_⟩
  · change ∀ f ∈ s₁.frames, _
    rw [hafter]
    exact List.forall_mem_cons.mpr ⟨⟨lines, hlines, hthose⟩,
      fun f hf => htracks.frames f (hmem (List.mem_cons_of_mem _ hf))⟩
  · exact (position_of_frames hafter).1 ▸ hlines
  · rw [(position_of_frames hafter).2]
    exact hthis

/-- A name that is new among the files included is no matter to them. -/
theorem insert {name : String} (htracks : s.Tracks all)
    (hnew : s.included.contains name = false) :
    Tracks all { s with included := (s.included.insert name).2 } where
  entries entry hentry := entries_insert hnew htracks.entries entry (List.mem_cons_of_mem _ hentry)
  frames := by
    rw [frames_insert hnew htracks.entries]
    exact htracks.frames
  files := htracks.files

/-- A file that is opened under it has all its lines left. -/
theorem push {name : String} {source : Source} (htracks : s.Tracks all)
    (hnew : s.included.contains name = false) (hfile : s.resolver.open? name = some source) :
    Tracks all { s with
      included := (s.included.insert name).2
      stack := s.stack.push source s.included.size } where
  entries := entries_insert hnew htracks.entries
  frames := by
    rw [frames_push hnew htracks.entries]
    refine List.forall_mem_cons.mpr ⟨⟨_, ?_, rfl⟩, htracks.frames⟩
    rw [htracks.files, hfile]
    rfl
  files := htracks.files

end Tracks

/-! ## In step -/

/-- Two scanners are in step: what is left to each is another edition of
what is left to the other, and the second goes by the lines given. -/
structure InStep (all : Option String → Option (List Bytes)) (s t : Scanner) : Prop where
  options : t.options = s.options
  stack : s.stack.Edition t.stack
  files : ∀ name, Option.Rel Source.Edition (s.resolver.open? name) (t.resolver.open? name)
  included : t.included = s.included
  inComment : t.head.inComment = s.head.inComment
  tracks : t.Tracks all

namespace InStep

variable {all : Option String → Option (List Bytes)} {s t s₁ t₁ : Scanner}

theorem activeFile (hstep : InStep all s t) : t.activeFile = s.activeFile := by
  rw [Scanner.activeFile, Scanner.activeFile, hstep.stack.active?, hstep.included]

/-- **Lines are fetched in step.** -/
theorem getLine (hstep : InStep all s t) :
    SameOutcome (fun found s₁ t₁ => found = true → InStep all s₁ t₁) (Scan.getLine s)
      (Scan.getLine t) := by
  have htracks {t₁ : Scanner} (hline : Scan.getLine t = .ok true t₁) :=
    hstep.tracks.getLine hline
  obtain ⟨hstack, hfetch⟩ := hstep.stack.fetchFrom s.options.maxLine hstep.stack.includes
  have hlimit : t.stack.fetch t.options.maxLine =
      t.stack.fetchFrom s.options.maxLine t.stack.includes := by rw [Stack.fetch, hstep.options]
  rw [Scan.getLine, hlimit] at htracks
  rw [Scan.getLine, Scan.getLine, hlimit, Stack.fetch]
  rcases hp : s.stack.fetchFrom s.options.maxLine s.stack.includes with ⟨first, stack⟩
  rcases hq : t.stack.fetchFrom s.options.maxLine t.stack.includes with ⟨first', stack'⟩
  rw [hq] at htracks
  rw [hp, hq] at hfetch hstack
  rcases hfetch with ⟨fault, rfl, rfl⟩ | ⟨line, line', rfl, rfl, hlayout⟩
  · have hactive : Scanner.activeFile { t with stack := stack', head := t.head.lose } =
        Scanner.activeFile { s with stack, head := s.head.lose } := by
      simp only [Scanner.activeFile, hstack.active?, hstep.included]
    dsimp only
    rw [hactive]
    exact sameOutcome_fail _ _ _ _
  · cases line with
    | nil =>
      rw [(Bytes.eq_nil_iff_of_layout hlayout).mpr rfl]
      exact .ok false fun hfound => absurd hfound Bool.false_ne_true
    | cons b line =>
      cases line' with
      | nil => cases hlayout
      | cons b' line' =>
        exact .ok true fun _ => ⟨hstep.options, hstack, hstep.files, hstep.included,
          hstep.inComment, (htracks rfl).1⟩

/-- A head that is moved along the line is no matter, but for the comment
it is in. -/
theorem of_head (hstep : InStep all s t) {head head' : Head}
    (hcomment : head'.inComment = head.inComment) :
    InStep all { s with head } { t with head := head' } :=
  ⟨hstep.options, hstep.stack, hstep.files, hstep.included, hcomment, hstep.tracks.of_head head'⟩

/-- **Files are opened in step.** -/
theorem pushInclude (hstep : InStep all s t) (name : String) :
    SameOutcome (fun _ => InStep all) (Scan.pushInclude name s) (Scan.pushInclude name t) := by
  cases hnew : s.included.contains name with
  | true =>
    rw [Scan.pushInclude_of_contains hnew,
      Scan.pushInclude_of_contains (hstep.included ▸ hnew)]
    exact .ok _ hstep
  | false =>
    have hnew' : t.included.contains name = false := hstep.included ▸ hnew
    rw [Scan.pushInclude_of_not_contains hnew, Scan.pushInclude_of_not_contains hnew']
    have hfile := hstep.files name
    cases hopen : s.resolver.open? name <;> cases hopen' : t.resolver.open? name <;>
      rw [hopen, hopen'] at hfile
    · refine .ok _ ⟨hstep.options, hstep.stack, hstep.files, ?_, hstep.inComment,
        hstep.tracks.insert hnew'⟩
      exact congrArg (fun included => (included.insert name).2) hstep.included
    · cases hfile
    · cases hfile
    · cases hfile with
      | some hedition =>
        refine .ok _ ⟨hstep.options, ⟨hstep.stack.program, hstep.stack.programLine, ?_⟩,
          hstep.files, ?_, hstep.inComment, hstep.tracks.push hnew' hopen'⟩
        · exact .cons ⟨hedition, congrArg OrderedSet.size hstep.included, rfl⟩ hstep.stack.includes
        · exact congrArg (fun included => (included.insert name).2) hstep.included

end InStep

end Scanner

namespace Listing

open Scanner

variable {all : Option String → Option (List Bytes)} {s t s₁ t₁ : Scanner}

/-- Files are granted in step, or neither is. -/
theorem sameOutcome_grant (hstep : InStep all s t) (name : String) :
    SameOutcome (fun _ => InStep all) (grant name s) (grant name t) := by
  refine (hstep.pushInclude name).bind fun status s₁ t₁ _ _ hafter => ?_
  cases status with
  | notFound => exact sameOutcome_fail _ _ _ _
  | opened | alreadySatisfied => exact .ok () hafter

/-- **Statements are performed in step.** -/
theorem sameOutcome_perform (hstep : InStep all s t) (statement : Statement) :
    SameOutcome (fun _ => InStep all) (perform statement s) (perform statement t) := by
  cases statement with
  | tokens tokens => exact .ok tokens hstep
  | request name =>
    exact (sameOutcome_grant hstep name).bind fun _ s₁ t₁ _ _ hafter => .ok [] hafter

/-- A line that was just fetched is all ahead, and no token is saved. -/
theorem head_of_getLine (hline : getLine s = .ok true s₁) :
    s₁.saved = none ∧ s₁.head = { ahead := s₁.head.line, inComment := s₁.head.inComment } := by
  obtain ⟨_, _, _, -, rfl⟩ := fetch_of_getLine hline
  exact ⟨rfl, rfl⟩

/-- **Lines that say the same** leave scanners in step. -/
theorem sameOutcome_statement (hstep : InStep all s₁ t₁) (hline : getLine s = .ok true s₁)
    (hline' : getLine t = .ok true t₁)
    (hsame : Statement.ofLine s₁.options s₁.head.inComment t₁.head.line =
      Statement.ofLine s₁.options s₁.head.inComment s₁.head.line) :
    SameOutcome (fun _ => InStep all) (statement s₁) (statement t₁) := by
  obtain ⟨hsaved, hhead⟩ := head_of_getLine hline
  obtain ⟨hsaved', hhead'⟩ := head_of_getLine hline'
  have hread := follows_readStatement hsaved hhead
  have hread' := follows_readStatement hsaved' hhead'
  rw [hstep.options, hstep.inComment, hsame] at hread'
  have hsame : SameOutcome (fun _ => InStep all) (readStatement s₁) (readStatement t₁) := by
    refine .of_follows hread hread' ?_
    rintro _ _ _ _ ⟨found, isOpen⟩ ⟨rfl, h, hopen, rfl⟩ ⟨rfl, h', hopen', rfl⟩
    exact ⟨rfl, hstep.of_head (hopen'.trans hopen.symm)⟩
  rw [statement_eq]
  exact hsame.bind fun statement s₂ t₂ _ _ hafter => sameOutcome_perform hafter statement

/-- Every line that a listing fetches says the same in the files given, where
its number is. -/
def Restated (all : Option String → Option (List Bytes)) (s : Scanner) : Prop :=
  ∀ s₁, Fetches s s₁ → ∀ line',
    ((all s₁.position.file).bind fun lines => lines[s₁.position.line - 1]?) = some line' →
    Statement.ofLine s₁.options s₁.head.inComment line' =
      Statement.ofLine s₁.options s₁.head.inComment s₁.head.line

/-- **Listings are made in step** if every line that is fetched says in the
second what it says in the first. -/
theorem sameOutcome_listFrom (fuel : Nat) (tokens : List Token) (hstep : InStep all s t)
    (hlines : Restated all s) :
    SameOutcome (fun _ _ _ => True) (listFrom tokens fuel s) (listFrom tokens fuel t) := by
  induction fuel generalizing s t tokens with
  | zero => exact .ok none trivial
  | succ fuel ih =>
    refine hstep.getLine.bind fun found s₁ t₁ hline hline' hafter => ?_
    cases found with
    | false => exact .ok _ trivial
    | true =>
      have hafter := hafter rfl
      obtain ⟨-, lines, hfile, hthis⟩ := hstep.tracks.getLine hline'
      -- both scanners are at the line of one number in one file
      have hplace : t₁.position.file = s₁.position.file ∧ t₁.position.line = s₁.position.line :=
        ⟨hafter.activeFile, hafter.stack.line⟩
      rw [hplace.1] at hfile
      rw [hplace.2] at hthis
      have hsame := hlines s₁ (.next hline) t₁.head.line (by rw [hfile]; exact hthis)
      refine (sameOutcome_statement hafter hline hline' hsame).bind
        fun these s₂ t₂ hstatement _ hagain => ?_
      exact ih _ hagain fun s₃ hfetches => hlines s₃ (.later hline hstatement hfetches)

theorem sameOutcome_list (hstep : InStep all s t)
    (hvolume : t.resolver.volume = s.resolver.volume) (hlines : Restated all s) :
    SameOutcome (fun _ _ _ => True) (list s) (list t) := by
  have hallowance : allowance t = allowance s := by
    rw [allowance, allowance, hstep.stack.left, hvolume]
  have hrun := sameOutcome_listFrom (allowance s) [] hstep hlines
  rw [list, list, hallowance]
  generalize listFrom [] (allowance s) s = run at hrun
  generalize listFrom [] (allowance s) t = run' at hrun
  cases hrun with
  | ok tokens => exact .ok _ trivial
  | error cause position position' s s' => exact .error cause position position' s s'

end Listing

/-- **Editions are in step when a pass begins**, or neither begins. -/
theorem Scanner.Edition.rewind {s t : Scanner} (hedition : s.Edition t) :
    SameOutcome (fun _ => InStep t.lines?) (Scan.rewind s) (Scan.rewind t) := by
  have hafter := hedition.program.rewind
  simp only [Scan.rewind, Scanner.closeAll, Stack.closeAll, Stack.rewind]
  rcases hp : s.stack.program.rewind with ⟨first, p⟩
  rcases hq : t.stack.program.rewind with ⟨first', q⟩
  rw [hp, hq] at hafter
  obtain ⟨hprogram, hfirst : first' = first⟩ := hafter
  subst hfirst
  cases first' with
  | error fault => exact sameOutcome_fail _ _ _ _
  | ok _ =>
    refine .ok () ⟨hedition.options, ⟨hprogram, rfl, .nil⟩, hedition.files, rfl, rfl,
      List.forall_mem_nil _, ?_, fun _ => rfl⟩
    -- the one frame is the program's, with all lines of its contents left
    have hall : q.lines t.options.maxLine = t.stack.program.allLines t.options.maxLine :=
      Source.lines_of_rewind hq
    simp [frames, Stack.frames, Stack.framesOf, lines?, hall]

namespace Listing

/-- **A line that a listing fetches** is the line of its number in its
file. -/
theorem Fetched.line? {s s₁ : Scanner} (hfetched : Fetched s s₁) :
    s.line? s₁.position.file s₁.position.line = some s₁.head.line := by
  obtain ⟨begun, hbegin, hfetches⟩ := hfetched
  -- a scanner goes in step with itself
  have hself : Scanner.InStep s.lines? begun begun :=
    ((Scanner.Edition.refl s).rewind).of_ok hbegin hbegin
  clear hbegin
  induction hfetches with
  | next hline =>
    obtain ⟨-, lines, hfile, hthis⟩ := hself.tracks.getLine hline
    rw [Scanner.line?, hfile]
    exact hthis
  | later hline hstatement _ ih =>
    have hthis := hself.getLine.of_ok hline hline rfl
    exact ih ((sameOutcome_statement hthis hline hline rfl).of_ok hstatement hstatement)

/-- **Another edition has the same listing** if every line that is fetched
says in it what it says in the first. -/
theorem make_edition {s t : Scanner} (hedition : s.Edition t)
    (hlines : ∀ s₁, Fetched s s₁ → ∀ line',
      t.line? s₁.position.file s₁.position.line = some line' →
      Statement.ofLine s₁.options s₁.head.inComment line' =
        Statement.ofLine s₁.options s₁.head.inComment s₁.head.line) :
    SameOutcome (fun _ _ _ => True) (make s) (make t) := by
  refine hedition.rewind.bind fun _ begun begun' hbegin hbegin' hstep => ?_
  have hvolume : begun'.resolver.volume = begun.resolver.volume := by
    rw [(begins_of_rewind hbegin').2.1, (begins_of_rewind hbegin).2.1, hedition.volume]
  exact (sameOutcome_list hstep hvolume fun s₁ hfetches =>
    hlines s₁ ⟨begun, hbegin, hfetches⟩).closing

end Listing

end BasicLexer
