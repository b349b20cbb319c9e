import BasicLexer.Input.Source

/-!
# Input — the disk

What a scan knows of a disk: what every path leads to, if it leads
anywhere, and how many bytes there are at most behind all paths
together. A file is read as a source of lines or as one text.
-/

namespace BasicLexer

/-- What a path leads to. -/
inductive Entry where
  | file (contents : Bytes)
  | directory
  deriving DecidableEq, Repr

/-- The bytes of an entry. -/
def Entry.size : Entry → Nat
  | .file contents => contents.length
  | .directory => 0

/-- A disk: what paths lead to, and the bytes there are of it all. -/
structure Disk where
  find : String → Except Fault Entry
  volume : Nat

namespace Disk

/-- The disk on which the paths listed lead where the list says and all
others nowhere. -/
def ofPaths (paths : List (String × Except Fault Entry)) : Disk where
  find path := (paths.lookup path).getD (.error .notFound)
  volume := total (fun p => (p.2.toOption.map Entry.size).getD 0) paths

/-- Open what a path leads to for reading. A directory opens too; its
first fetch fails. -/
def openSource (disk : Disk) (path : String) : Except Fault Source := do
  match ← disk.find path with
  | .file contents => .ok (.ofFile contents)
  | .directory => .ok .ofDirectory

/-- The text of the file a path leads to. -/
def readText (disk : Disk) (path : String) : Except Fault String := do
  match ← disk.find path with
  | .directory => .error .isADirectory
  | .file contents =>
    match String.fromUTF8? ⟨contents.toArray⟩ with
    | some text => .ok text
    | none => .error .notText

end Disk

end BasicLexer
