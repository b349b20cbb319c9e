import BasicLexer.Proofs.Client.Origin
import BasicLexer.Proofs.Scanner.Requests

/-!
# Clients — the open files and the names included

An open include file holds the index of its name among the names included.
The files are opened one upon the other and the names are entered in
order, so the indices grow from the program up; and what closes files
enters no name. `Scanner.Registered` says this of a scanner, and every
operation keeps it (`Operation.registered_afterAll`), whichever of them
fail. The names a resolver was handed are those included.
-/

namespace BasicLexer

/-- An open file is that of a name: the resolver opens it, and it was only
read since. -/
def OpenFile.IsOf (resolver : Resolver) (name : String) (f : OpenFile) : Prop :=
  ∃ source, resolver.open? name = some source ∧ source.From f.source

/-! ## What a step makes of the open files -/

/-- What is left of the open files as they are read: the outer ones, read
on. -/
structure OpenFile.LeftOf (files files' : List OpenFile) : Prop where
  entries : files'.map OpenFile.entry <:+ files.map OpenFile.entry
  sources : ∀ f' ∈ files', ∃ f ∈ files, f'.entry = f.entry ∧ f.source.From f'.source

namespace OpenFile.LeftOf

theorem refl (files : List OpenFile) : LeftOf files files :=
  ⟨List.suffix_refl _, fun f hf => ⟨f, hf, rfl, .refl _⟩⟩

theorem nil (files : List OpenFile) : LeftOf files [] :=
  ⟨List.nil_suffix, nofun⟩

/-- A file more that is closed. -/
theorem cons {files files' : List OpenFile} (top : OpenFile) (h : LeftOf files files') :
    LeftOf (top :: files) files' where
  entries := h.entries.trans (List.suffix_cons _ _)
  sources f' hf' := by
    obtain ⟨f, hf, hfrom⟩ := h.sources f' hf'
    exact ⟨f, List.mem_cons_of_mem _ hf, hfrom⟩

/-- The file on top is read on. -/
theorem read {top top' : OpenFile} (below : List OpenFile) (hentry : top'.entry = top.entry)
    (hsource : top.source.From top'.source) : LeftOf (top :: below) (top' :: below) where
  entries := by
    have hsame : (top' :: below).map OpenFile.entry = (top :: below).map OpenFile.entry := by
      rw [List.map_cons, List.map_cons, hentry]
    exact hsame ▸ List.suffix_refl _
  sources f' hf' := by
    rcases List.mem_cons.mp hf' with rfl | hf'
    · exact ⟨top, List.mem_cons_self, hentry, hsource⟩
    · exact ⟨f', List.mem_cons_of_mem _ hf', rfl, .refl _⟩

end OpenFile.LeftOf

/-- A fetch closes files and reads on in one, whether or not it fails. -/
theorem Stack.leftOf_fetchFrom (limit : Nat) (s : Stack) (files : List OpenFile) :
    OpenFile.LeftOf files (fetchFrom limit s files).2.includes := by
  induction files with
  | nil =>
    rw [fetchFrom]
    rcases s.program.fetch limit with ⟨_ | _, program⟩ <;> exact .nil []
  | cons top below ih =>
    have hfrom := Source.from_fetch limit top.source
    rw [fetchFrom]
    rcases hfetch : top.source.fetch limit with ⟨_ | _ | _, source⟩ <;> rw [hfetch] at hfrom
    · exact .read below rfl hfrom
    · exact ih.cons top
    · exact .read below rfl hfrom

namespace Scanner

/-- A step that enters no name: the names are as they were, and the open
files are what is left of them. -/
structure Keeps (s s' : Scanner) : Prop where
  included : s'.included = s.included
  includes : OpenFile.LeftOf s.stack.includes s'.stack.includes

namespace Keeps

variable {s s' : Scanner}

theorem of_eq (hincluded : s'.included = s.included) (hstack : s'.stack = s.stack) :
    Keeps s s' :=
  ⟨hincluded, by rw [hstack]; exact .refl _⟩

theorem of_closed (hincluded : s'.included = s.included) (hstack : s'.stack.includes = []) :
    Keeps s s' :=
  ⟨hincluded, by rw [hstack]; exact .nil _⟩

end Keeps

/-- The names included and the open files belong together: the two sides
of the registry agree, the indices of the files grow from the program up,
and each is that of the file's name. -/
structure Registered (s : Scanner) : Prop where
  consistent : s.included.Consistent
  increasing : (s.stack.includes.map OpenFile.entry).Pairwise (· > ·)
  named : ∀ f ∈ s.stack.includes, ∃ name,
    s.included.get? f.entry = some name ∧ f.IsOf s.resolver name

end Scanner

namespace Operation

open Scanner

variable {s : Scanner}

/-- The names an operation hands to the resolver. -/
def handed : Operation → Scanner → List String
  | pushInclude name, s => Scan.handed name s
  | _, _ => []

theorem keeps_reading {α : Type} (x : Reader α) (s : Scanner) :
    Keeps s (Scan.after (Scan.reading x) s) := by
  rw [Scan.after, Scan.reading]
  rcases x s.head with ⟨_, _⟩ | ⟨⟨_⟩ | ⟨_⟩, _⟩
  · exact .of_eq rfl rfl
  · exact .of_closed rfl rfl
  · exact .of_eq rfl rfl

theorem keeps_getLine (s : Scanner) : Keeps s (Scan.after Scan.getLine s) := by
  have hleft := Stack.leftOf_fetchFrom s.options.maxLine s.stack s.stack.includes
  rw [Scan.after, Scan.getLine, Stack.fetch]
  rcases hfetch : Stack.fetchFrom s.options.maxLine s.stack s.stack.includes with
    ⟨_ | _ | _, stack⟩ <;> rw [hfetch] at hleft
  · exact .of_closed rfl rfl
  · exact ⟨rfl, hleft⟩
  · exact ⟨rfl, hleft⟩

theorem keeps_getToken (s : Scanner) : Keeps s (Scan.after Scan.getToken s) := by
  rw [Scan.after, Scan.getToken]
  cases s.saved with
  | some token => exact .of_eq rfl rfl
  | none => exact keeps_reading (Lexeme.read s.options) s

theorem keeps_requireToken (token : Token) (kind : Kind) (s : Scanner) :
    Keeps s (Scan.after (Scan.requireToken token kind) s) := by
  rw [Scan.after, Scan.requireToken]
  by_cases hkind : token.kind = kind
  · rw [if_pos hkind]
    exact .of_eq rfl rfl
  · rw [if_neg hkind]
    exact .of_closed rfl rfl

/-- **What an operation can do** to the open files and the names: keep
the names and close files, enter a new name and open its file if there is
one, or start over. -/
theorem after_cases (op : Operation) (s : Scanner) :
    (op ≠ rewind ∧ op.handed s = [] ∧ Keeps s (op.after s)) ∨
    (∃ name, op = pushInclude name ∧ s.included.contains name = false ∧
      (op.after s).included = (s.included.insert name).2 ∧
      ((op.after s).stack.includes = s.stack.includes ∨
        ∃ source, s.resolver.open? name = some source ∧
          (op.after s).stack.includes =
            { source, entry := s.included.size } :: s.stack.includes)) ∨
    (op = rewind ∧ (op.after s).included = .empty ∧ (op.after s).stack.includes = []) := by
  cases op with
  | getLine =>
    rw [after, run, Scan.after_silent]
    exact .inl ⟨by rintro ⟨⟩, rfl, keeps_getLine s⟩
  | getToken =>
    rw [after, run, Scan.after_silent]
    exact .inl ⟨by rintro ⟨⟩, rfl, keeps_getToken s⟩
  | saveToken token =>
    refine .inl ⟨by rintro ⟨⟩, rfl, ?_⟩
    rw [after, run, Scan.after, Scan.saveToken]
    cases s.saved <;> exact .of_eq rfl rfl
  | requireToken token kind =>
    rw [after, run, Scan.after_silent]
    exact .inl ⟨by rintro ⟨⟩, rfl, keeps_requireToken token kind s⟩
  | nextChar =>
    rw [after, run, Scan.after_silent]
    exact .inl ⟨by rintro ⟨⟩, rfl, keeps_reading _ s⟩
  | skipSpaces =>
    rw [after, run, Scan.after_silent]
    exact .inl ⟨by rintro ⟨⟩, rfl, keeps_reading _ s⟩
  | pushBack => exact .inl ⟨by rintro ⟨⟩, rfl, keeps_reading _ s⟩
  | pushInclude name =>
    rw [after, run, Scan.after_silent, Scan.after]
    cases hold : s.included.contains name with
    | true =>
      rw [Scan.pushInclude_of_contains hold]
      exact .inl ⟨by rintro ⟨⟩, Scan.handed_of_contains hold, .of_eq rfl rfl⟩
    | false =>
      refine .inr (.inl ⟨name, rfl, hold, ?_⟩)
      rw [Scan.pushInclude_of_not_contains hold]
      cases hopen : s.resolver.open? name with
      | some source => exact ⟨rfl, .inr ⟨source, rfl, rfl⟩⟩
      | none => exact ⟨rfl, .inl rfl⟩
  | closeAll => exact .inl ⟨by rintro ⟨⟩, rfl, .of_closed rfl rfl⟩
  | rewind =>
    refine .inr (.inr ⟨rfl, ?_⟩)
    rw [after, run, Scan.after, Scan.rewind]
    dsimp only [Scanner.closeAll, Stack.closeAll, Stack.rewind]
    rcases s.stack.program.rewind with ⟨_ | _, program⟩ <;> exact ⟨rfl, rfl⟩
  | fail message arguments => exact .inl ⟨by rintro ⟨⟩, rfl, .of_closed rfl rfl⟩

end Operation

/-! ## What every operation keeps -/

namespace Scanner

variable {s s' : Scanner}

theorem registered_start (options : Options) (resolver : Resolver) (program : Source) :
    Registered (start options resolver program) :=
  ⟨OrderedSet.consistent_empty, List.Pairwise.nil, nofun⟩

namespace Registered

theorem keep (hs : s.Registered) (hkeeps : s.Keeps s') (hresolver : s'.resolver = s.resolver) :
    s'.Registered where
  consistent := by
    rw [hkeeps.included]
    exact hs.consistent
  increasing := hs.increasing.sublist hkeeps.includes.entries.sublist
  named f' hf' := by
    obtain ⟨f, hf, hentry, hread⟩ := hkeeps.includes.sources f' hf'
    obtain ⟨name, hname, source, hopen, hfrom⟩ := hs.named f hf
    rw [hkeeps.included, hentry, hresolver]
    exact ⟨name, hname, source, hopen, hfrom.trans hread⟩

/-- The index of an open file is that of a name. -/
theorem entry_lt (hs : s.Registered) {f : OpenFile} (hf : f ∈ s.stack.includes) :
    f.entry < s.included.size := by
  obtain ⟨name, hname, -⟩ := hs.named f hf
  exact (Array.getElem?_eq_some_iff.mp hname).1

/-- A name that is entered leaves the open files their names. -/
theorem named_insert (hs : s.Registered) {name : String}
    (hnew : s.included.contains name = false) {f : OpenFile} (hf : f ∈ s.stack.includes) :
    ∃ name', (s.included.insert name).2.get? f.entry = some name' ∧
      f.IsOf s.resolver name' := by
  obtain ⟨name', hname, hof⟩ := hs.named f hf
  refine ⟨name', ?_, hof⟩
  rw [OrderedSet.get?_insert_of_not_contains hnew, if_neg (Nat.ne_of_lt (hs.entry_lt hf)), hname]

/-- **An operation keeps the registry.** -/
theorem after (hs : s.Registered) (op : Operation) : (op.after s).Registered := by
  have hresolver := (Operation.from_after op s).resolver
  rcases Operation.after_cases op s with
    ⟨-, -, hkeeps⟩ | ⟨name, -, hnew, hincluded, hincludes⟩ | ⟨-, hincluded, hincludes⟩
  · exact hs.keep hkeeps hresolver
  · refine ⟨by rw [hincluded]; exact hs.consistent.insert name, ?_, ?_⟩
    · rcases hincludes with hsame | ⟨source, -, hopened⟩
      · rw [hsame]
        exact hs.increasing
      · rw [hopened, List.map_cons, List.pairwise_cons]
        refine ⟨fun entry hentry => ?_, hs.increasing⟩
        obtain ⟨f, hf, rfl⟩ := List.mem_map.mp hentry
        exact hs.entry_lt hf
    · rw [hincluded, hresolver]
      rcases hincludes with hsame | ⟨source, hopen, hopened⟩
      · rw [hsame]
        exact fun f hf => hs.named_insert hnew hf
      · rw [hopened]
        intro f hf
        rcases List.mem_cons.mp hf with rfl | hf
        · refine ⟨name, ?_, source, hopen, .refl _⟩
          rw [OrderedSet.get?_insert_of_not_contains hnew, if_pos rfl]
        · exact hs.named_insert hnew hf
  · refine ⟨by rw [hincluded]; exact OrderedSet.consistent_empty, ?_, ?_⟩
    · rw [hincludes]
      exact List.Pairwise.nil
    · rw [hincludes]
      exact nofun

theorem afterAll (hs : s.Registered) (ops : List Operation) :
    (Operation.afterAll ops s).Registered := by
  induction ops generalizing s with
  | nil => exact hs
  | cons op ops ih => exact ih (hs.after op)

/-- No two open files have one name. -/
theorem nodup_names (hs : s.Registered) :
    (s.stack.includes.map fun f => s.included.get? f.entry).Nodup := by
  have hdistinct := List.pairwise_map.mp hs.increasing
  rw [List.Nodup, List.pairwise_map]
  refine hdistinct.imp_of_mem fun {f g} hf hg hlt heq => ?_
  obtain ⟨name, hname, -⟩ := hs.named f hf
  have hother : s.included.get? g.entry = some name := heq ▸ hname
  exact absurd (hs.consistent.get?_inj hname hother) (Nat.ne_of_gt hlt)

end Registered

end Scanner

/-! ## Runs -/

namespace Operation

variable {s : Scanner}

/-- The names handed to the resolver since the last new pass, after those
given. -/
def handedSince (names : List String) : List Operation → Scanner → List String
  | [], _ => names
  | op :: ops, s =>
    handedSince (if op = rewind then [] else names ++ op.handed s) ops (op.after s)

/-- The names included are followed by those handed to the resolver. -/
theorem includedFiles_after (op : Operation) (s : Scanner) :
    (op.after s).includedFiles = if op = rewind then [] else s.includedFiles ++ op.handed s := by
  unfold Scanner.includedFiles
  rcases after_cases op s with
    ⟨hop, hnone, hkeeps⟩ | ⟨name, rfl, hnew, hincluded, -⟩ | ⟨rfl, hincluded, -⟩
  · rw [if_neg hop, hnone, List.append_nil, hkeeps.included]
  · rw [if_neg nofun, handed, Scan.handed_of_not_contains hnew, hincluded,
      OrderedSet.toList_insert_of_not_contains hnew]
  · rw [if_pos rfl, hincluded]
    rfl

theorem handedSince_includedFiles (ops : List Operation) (s : Scanner) :
    handedSince s.includedFiles ops s = (afterAll ops s).includedFiles := by
  induction ops generalizing s with
  | nil => rfl
  | cons op ops ih =>
    rw [handedSince, ← includedFiles_after]
    exact ih (op.after s)

/-- **The open files and the names included belong together** after any
operations, failed ones included and over sources that may fail at any
call. The program is at the bottom, and each file above it is the file of
the name at its index; the indices grow from the bottom up, and no two
files have one name. The names handed to the resolver since the last new
pass are the names included, in order, each once; and a request is
satisfied already exactly if its name is among them, and then changes
nothing. -/
theorem registered_afterAll (options : Options) (resolver : Resolver) (program : Source)
    (ops : List Operation) :
    let start := Scanner.start options resolver program
    let s := afterAll ops start
    program.From s.stack.program ∧
    (∀ f ∈ s.stack.includes, ∃ name,
      s.included.get? f.entry = some name ∧ f.IsOf resolver name) ∧
    (s.stack.includes.map OpenFile.entry).Pairwise (· > ·) ∧
    (s.stack.includes.map fun f => s.included.get? f.entry).Nodup ∧
    handedSince [] ops start = s.includedFiles ∧ s.includedFiles.Nodup ∧
    ∀ name, ∃ status s', Scan.pushInclude name s = .ok status s' ∧
      (status = .alreadySatisfied ↔ name ∈ s.includedFiles) ∧
      (status = .alreadySatisfied → s' = s) := by
  intro start s
  have hfrom : start.From s := from_afterAll ops start
  have hs : s.Registered := (Scanner.registered_start options resolver program).afterAll ops
  refine ⟨hfrom.program, ?_, hs.increasing, hs.nodup_names, handedSince_includedFiles ops start,
    hs.consistent.nodup, fun name => ?_⟩
  · have hresolver : s.resolver = resolver := hfrom.resolver
    rw [← hresolver]
    exact hs.named
  · have hcontains : s.included.contains name = true ↔ name ∈ s.includedFiles :=
      hs.consistent.contains_iff
    cases hold : s.included.contains name with
    | true =>
      exact ⟨.alreadySatisfied, s, Scan.pushInclude_of_contains hold,
        iff_of_true rfl (hcontains.mp hold), fun _ => rfl⟩
    | false =>
      have hnot : name ∉ s.includedFiles := fun hmem => by
        rw [hcontains.mpr hmem] at hold
        cases hold
      rw [Scan.pushInclude_of_not_contains hold]
      cases s.resolver.open? name with
      | some source => exact ⟨.opened, _, rfl, iff_of_false nofun hnot, nofun⟩
      | none => exact ⟨.notFound, _, rfl, iff_of_false nofun hnot, nofun⟩

end Operation

end BasicLexer
