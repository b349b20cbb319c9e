import BasicLexer.Input.FileTree
import BasicLexer.Input.Resolver
import BasicLexer.Proofs.Input.Chunks

/-!
# Input — finding the file of a name

A name is to stand for the first of its candidates that is the path of a file.
What opens is the first that leads anywhere (`Resolver.open?_search`), and
directories open too. So a directory hides the files behind it, and that is
all there is between the two: a name finds its file exactly where the first
candidate that leads anywhere does not lead to a directory
(`Resolver.findsFile_iff`).
-/

namespace BasicLexer

/-- A source reads a text if its fetches give the pieces of the text, in order
and whatever the limit, and from then on the empty line. None of them fails. -/
def Source.Reads (s : Source) (contents : Bytes) : Prop :=
  ∀ limit n, ((s.afterFetches limit n).fetch limit).1 =
    .ok (((Bytes.pieces limit contents)[n]?).getD [])

/-- What opens where an entry is. -/
def Source.ofEntry : Entry → Source
  | .file contents => .ofFile contents
  | .directory => .ofDirectory

theorem Source.reads_ofFile (contents : Bytes) : (ofFile contents).Reads contents := by
  have hchunks : (ofFile contents).pending.flatten = contents := Feed.flatten_ofBytes 8191 contents
  intro limit n
  rw [fetch_afterFetches limit (reliable_ofFile contents), hchunks]

theorem Source.fetch_ofDirectory (limit : Nat) :
    (ofDirectory.fetch limit).1 = .error .isADirectory := rfl

/-- A directory reads nothing, not even the empty text. -/
theorem Source.not_reads_ofDirectory (contents : Bytes) : ¬ ofDirectory.Reads contents := by
  intro h
  have hfirst := h 0 0
  rw [afterFetches, fetch_ofDirectory] at hfirst
  cases hfirst

namespace Disk

variable {disk : Disk} {path : String} {paths : List String} {contents : Bytes}

/-- The contents of the file that a path leads to. -/
def file? (disk : Disk) (path : String) : Option Bytes :=
  match disk.find path with
  | .ok (.file contents) => some contents
  | _ => none

/-- What the first of the paths leads to that leads anywhere. -/
def first? (disk : Disk) (paths : List String) : Option Entry :=
  paths.findSome? fun path => (disk.find path).toOption

theorem toOption_openSource (disk : Disk) (path : String) :
    (disk.openSource path).toOption = (disk.find path).toOption.map Source.ofEntry := by
  rw [openSource]
  cases disk.find path with
  | error fault => rfl
  | ok entry => cases entry <;> rfl

theorem file?_of_find_eq_none (hfind : (disk.find path).toOption = none) :
    disk.file? path = none := by
  rw [file?]
  cases hentry : disk.find path with
  | error fault => rfl
  | ok entry =>
    rw [hentry] at hfind
    cases hfind

theorem file?_of_find_eq_file (hfind : (disk.find path).toOption = some (.file contents)) :
    disk.file? path = some contents := by
  rw [file?]
  cases hentry : disk.find path with
  | error fault =>
    rw [hentry] at hfind
    cases hfind
  | ok entry =>
    rw [hentry] at hfind
    cases hfind
    rfl

/-- Where no path leads anywhere there is no file. -/
theorem file?_of_first?_eq_none (hfirst : disk.first? paths = none) :
    ∀ path ∈ paths, disk.file? path = none :=
  fun path hpath => file?_of_find_eq_none (List.findSome?_eq_none_iff.mp hfirst path hpath)

/-- Where the first path that leads anywhere leads to a file, that is the first
file. -/
theorem findSome?_file?_of_first? (hfirst : disk.first? paths = some (.file contents)) :
    paths.findSome? disk.file? = some contents := by
  obtain ⟨before, path, after, hpaths, hpath, hbefore⟩ := List.findSome?_eq_some_iff.mp hfirst
  exact List.findSome?_eq_some_iff.mpr ⟨before, path, after, hpaths, file?_of_find_eq_file hpath,
    fun other hother => file?_of_find_eq_none (hbefore other hother)⟩

end Disk

namespace Resolver

variable {disk : Disk} {name : String} {directories : List String}

/-- **What opens** is the first candidate that leads anywhere. -/
theorem open?_search (disk : Disk) (directories : List String) (name : String) :
    (search disk directories).open? name =
      (disk.first? (Path.candidates name directories)).map Source.ofEntry := by
  rw [open?, Disk.first?, List.map_findSome?]
  congr 1
  exact funext fun path => disk.toOption_openSource path

/-- A name finds its file. If a candidate is the path of a file, what opens
reads the first such file, all of it and without failing; and nothing opens
exactly if no candidate is. -/
structure FindsFile (disk : Disk) (directories : List String) (name : String) : Prop where
  opens : ∀ contents, (Path.candidates name directories).findSome? disk.file? = some contents →
    ∃ source, (search disk directories).open? name = some source ∧ source.Reads contents
  none_iff : (search disk directories).open? name = none ↔
    ∀ path ∈ Path.candidates name directories, disk.file? path = none

/-- A directory in front opens, whatever is behind it. -/
theorem open?_of_directory
    (hfirst : disk.first? (Path.candidates name directories) = some .directory) :
    (search disk directories).open? name = some .ofDirectory := by
  rw [open?_search, hfirst]
  rfl

/-- **A directory hides the files behind it.** -/
theorem not_findsFile_of_directory
    (hfirst : disk.first? (Path.candidates name directories) = some .directory) :
    ¬ FindsFile disk directories name := by
  intro hfinds
  have hopen := open?_of_directory hfirst
  cases hfile : (Path.candidates name directories).findSome? disk.file? with
  | none =>
    -- then nothing should open, but the directory does
    have hnone := hfinds.none_iff.mpr (List.findSome?_eq_none_iff.mp hfile)
    rw [hopen] at hnone
    cases hnone
  | some contents =>
    obtain ⟨source, hsource, hreads⟩ := hfinds.opens contents hfile
    rw [hopen] at hsource
    cases hsource
    exact Source.not_reads_ofDirectory contents hreads

/-- **Nothing else does.** -/
theorem findsFile_of_not_directory
    (hfirst : disk.first? (Path.candidates name directories) ≠ some .directory) :
    FindsFile disk directories name := by
  have hopen := open?_search disk directories name
  cases hentry : disk.first? (Path.candidates name directories) with
  | none =>
    have hnone := Disk.file?_of_first?_eq_none hentry
    rw [hentry] at hopen
    refine ⟨fun contents hfile => ?_, iff_of_true hopen hnone⟩
    rw [List.findSome?_eq_none_iff.mpr hnone] at hfile
    cases hfile
  | some entry =>
    cases entry with
    | directory => exact absurd hentry hfirst
    | file contents =>
      have hfile := Disk.findSome?_file?_of_first? hentry
      rw [hentry] at hopen
      refine ⟨fun other hother => ?_, ?_⟩
      · rw [hfile] at hother
        cases hother
        exact ⟨.ofFile contents, hopen, Source.reads_ofFile contents⟩
      · rw [hopen, ← List.findSome?_eq_none_iff, hfile]
        exact iff_of_false nofun nofun

/-- **A name finds its file exactly where no directory is in front.** Take any
disk, any directories to search and any name. If the first candidate that leads
anywhere leads to a directory, it is that which opens, and every read of it
fails; and in no other case does a name fail to find its file. -/
theorem findsFile_iff (disk : Disk) (directories : List String) (name : String) :
    (FindsFile disk directories name ↔
      disk.first? (Path.candidates name directories) ≠ some .directory) ∧
    (FindsFile disk directories name ∨
      (search disk directories).open? name = some .ofDirectory ∧
        ∀ limit, (Source.ofDirectory.fetch limit).1 = .error .isADirectory) := by
  refine ⟨⟨fun hfinds hfirst => not_findsFile_of_directory hfirst hfinds,
    findsFile_of_not_directory⟩, ?_⟩
  by_cases hfirst : disk.first? (Path.candidates name directories) = some .directory
  · exact .inr ⟨open?_of_directory hfirst, Source.fetch_ofDirectory⟩
  · exact .inl (findsFile_of_not_directory hfirst)

/-- A directory in the working directory, and a file of that name in one that
is searched. -/
theorem not_findsFile_behind_directory :
    ¬ FindsFile (FileTree.ofList [("io", none), ("lib/io", some "A\n".toUTF8.toList)]).disk
      ["lib"] "io" :=
  not_findsFile_of_directory (by decide +kernel)

end Resolver

end BasicLexer
