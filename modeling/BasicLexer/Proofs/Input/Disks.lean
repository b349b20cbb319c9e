import BasicLexer.Input.FileTree
import BasicLexer.Input.Resolver
import BasicLexer.Proofs.Input.Chunks
import BasicLexer.Proofs.Input.LinesLeft
import BasicLexer.Proofs.Total

/-!
# Input — the files of a disk

Many paths may lead to one file of a disk, but there are only so many files
(`Disk.Holds`). Whatever path is opened, and whatever name is looked for
along search paths, the source that comes of it is one of them or a
directory, and is at its first line. So its lines are among those of all
files (`Disk.Holds.lines_sublist`), of which there are no more than bytes.
-/

namespace BasicLexer

namespace Source

/-- A source at its first line, which can be started over at any time. -/
structure AtStart (s : Source) : Prop where
  pending : s.pending = s.contents
  rewindFault : ∀ n, s.rewindFault n = none

theorem atStart_ofFile (contents : Bytes) : (ofFile contents).AtStart := ⟨rfl, fun _ => rfl⟩

theorem atStart_ofDirectory : ofDirectory.AtStart := ⟨rfl, fun _ => rfl⟩

end Source

/-- The logical lines of all the files given. -/
def Bytes.linesOfAll (limit : Nat) (files : List Bytes) : List Bytes :=
  files.flatMap (logicalLines limit)

/-- A disk holds the files given, and no more than its volume of them. -/
structure Disk.Holds (disk : Disk) (files : List Bytes) : Prop where
  found : ∀ path contents, disk.find path = .ok (.file contents) → contents ∈ files
  volume : total List.length files ≤ disk.volume

namespace Disk

variable {disk : Disk} {files : List Bytes} {limit : Nat} {path name : String} {source : Source}

/-- **What opens on a disk** is a file it leads to, or a directory. -/
theorem openSource_eq_ok (hopen : disk.openSource path = .ok source) :
    source.AtStart ∧
      ((∃ contents, disk.find path = .ok (.file contents) ∧ source.pending.flatten = contents) ∨
        source.pending.flatten = []) := by
  obtain ⟨entry, hfind, hsource⟩ := except_bind_eq_ok hopen
  cases entry with
  | file contents =>
    cases hsource
    exact ⟨Source.atStart_ofFile contents,
      .inl ⟨contents, hfind, Feed.flatten_ofBytes 8191 contents⟩⟩
  | directory =>
    cases hsource
    exact ⟨Source.atStart_ofDirectory, .inr rfl⟩

/-- What is found along search paths is what opens on one of them. -/
theorem openSource_of_search {directories : List String}
    (hopen : (Resolver.search disk directories).open? name = some source) :
    ∃ path, disk.openSource path = .ok source := by
  obtain ⟨path, -, hpath⟩ := List.exists_of_findSome?_eq_some hopen
  refine ⟨path, ?_⟩
  cases hsource : disk.openSource path with
  | ok found =>
    rw [hsource] at hpath
    exact congrArg Except.ok (Option.some.inj hpath)
  | error fault =>
    rw [hsource] at hpath
    cases hpath

namespace Holds

/-- **The lines of what opens** are among those of the files. -/
theorem lines_sublist (hdisk : disk.Holds files) (hopen : disk.openSource path = .ok source) :
    (source.lines limit).Sublist (Bytes.linesOfAll limit files) := by
  rw [Source.lines]
  rcases (openSource_eq_ok hopen).2 with ⟨contents, hfind, hcontents⟩ | hnone
  · have hthis : Bytes.logicalLines limit contents ∈ files.map (Bytes.logicalLines limit) :=
      List.mem_map.mpr ⟨contents, hdisk.found path contents hfind, rfl⟩
    rw [hcontents, Bytes.linesOfAll, List.flatMap_def]
    exact List.sublist_flatten_of_mem hthis
  · rw [hnone, Bytes.logicalLines_nil]
    exact List.nil_sublist _

/-- There are no more of them than bytes. -/
theorem length_linesOfAll_le (hdisk : disk.Holds files) (limit : Nat) :
    (Bytes.linesOfAll limit files).length ≤ disk.volume := by
  refine Nat.le_trans ?_ hdisk.volume
  rw [Bytes.linesOfAll, length_flatMap_eq_total]
  exact total_le_total fun contents _ => Bytes.length_logicalLines_le limit contents

end Holds

/-! ## Disks of trees -/

/-- A disk on which some paths cannot be opened, for whatever reason. -/
def refusing (disk : Disk) (faults : String → Option Fault) : Disk where
  find path :=
    match faults path with
    | some fault => .error fault
    | none => disk.find path
  volume := disk.volume

theorem Holds.refusing (hdisk : disk.Holds files) (faults : String → Option Fault) :
    (disk.refusing faults).Holds files where
  found path contents hfind := by
    rw [Disk.refusing] at hfind
    cases hfault : faults path with
    | some fault =>
      simp only [hfault] at hfind
      cases hfind
    | none =>
      simp only [hfault] at hfind
      exact hdisk.found path contents hfind
  volume := hdisk.volume

end Disk

/-- The contents of a file; a directory has none. -/
def Entry.contents? : Entry → Option Bytes
  | file contents => some contents
  | directory => none

namespace FileTree

/-- The files of a tree. -/
def files (tree : FileTree) : List Bytes := tree.entries.filterMap fun e => e.2.contents?

/-- **The disk of a tree** holds the files of the tree. -/
theorem holds_disk (tree : FileTree) : tree.disk.Holds tree.files where
  found path contents hfind := by
    obtain ⟨place, -, hplace⟩ := except_bind_eq_ok hfind
    have hget : tree.get? place = some (.file contents) := by
      cases hget : tree.get? place with
      | none =>
        rw [hget] at hplace
        cases hplace
      | some entry =>
        rw [hget] at hplace
        cases hplace
        rfl
    have hlookup : tree.entries.lookup place = some (.file contents) := by
      unfold get? at hget
      split at hget
      · cases hget
      · cases hget
      · exact hget
    obtain ⟨before, after, hsplit, -⟩ := List.lookup_eq_some_iff.mp hlookup
    refine List.mem_filterMap.mpr ⟨(place, .file contents), ?_, rfl⟩
    rw [hsplit]
    exact List.mem_append_right _ List.mem_cons_self
  volume := by
    have hsum : total List.length tree.files = tree.volume := by
      rw [files, volume]
      induction tree.entries with
      | nil => rfl
      | cons e rest ih =>
        obtain ⟨place, entry⟩ := e
        cases entry with
        | file contents => exact congrArg (contents.length + ·) ih
        | directory => exact ih.trans (Nat.zero_add _).symm
    exact Nat.le_of_eq hsum

end FileTree

end BasicLexer
