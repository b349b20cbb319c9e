import BasicLexer.Input.Disk

/-!
# Input — a tree of files

The working directory and what lies around it, as a finite table of
places. A path is resolved by a walk, part by part, that takes every
step from a directory; making a path is the same walk, with a directory
made wherever there is nothing yet.
-/

namespace BasicLexer

namespace FileTree

/-- A place of the tree: down by names from the directory that lies so
many above the working directory, or the root. -/
inductive Place where
  | down (above : Nat) (names : List String)
  | root
  deriving DecidableEq, Repr

namespace Place

/-- The working directory. -/
def here : Place := down 0 []

/-- The place one directory up. The root is above itself. -/
def parent : Place → Place
  | root => root
  | down above [] => down (above + 1) []
  | down above (name :: names) => down above (name :: names).dropLast

/-- The place a name has in a directory. Nothing is known of the names
in the root. -/
def child? : Place → String → Option Place
  | root, _ => none
  | down above names, name => some (down above (names ++ [name]))

end Place

end FileTree

open FileTree in
/-- A tree of files: what there is, by its place. -/
structure FileTree where
  entries : List (Place × Entry) := []
  deriving Repr

namespace FileTree

/-- What is at a place. The working directory, those that contain it and
the root are always there. -/
def get? (tree : FileTree) : Place → Option Entry
  | .root => some .directory
  | .down _ [] => some .directory
  | place => tree.entries.lookup place

/-- A tree with one entry more, which hides an older one at its place. -/
def put (tree : FileTree) (place : Place) (entry : Entry) : FileTree :=
  ⟨(place, entry) :: tree.entries⟩

/-! ## Paths -/

/-- The parts of a path, between its slashes. -/
def parts : List Char → List (List Char)
  | [] => [[]]
  | c :: rest =>
    if c = '/' then [] :: parts rest
    else
      match parts rest with
      | part :: others => (c :: part) :: others
      | [] => [[c]]

/-- The place the walk along a path starts from. -/
def start (path : String) : Place := if path.toList.head? = some '/' then .root else .here

/-- Whether a part of a path stays where it is. -/
def stays (part : String) : Bool := part = "" || part = "."

/-- The longest name of a file, in bytes. -/
def longestName : Nat := 255

/-- One byte more than the longest path. -/
def pathLimit : Nat := 4096

/-- One step of a walk, from a directory to what a part of the path
names there. -/
def step (tree : FileTree) (place : Place) (part : String) : Except Fault Place :=
  match tree.get? place with
  | none => .error .notFound
  | some (.file _) => .error .notADirectory
  | some .directory =>
    if stays part then .ok place
    else if part = ".." then .ok place.parent
    else if longestName < part.utf8ByteSize then .error .nameTooLong
    else
      match place.child? part with
      | none => .error .notFound
      | some next => if (tree.get? next).isSome then .ok next else .error .notFound

/-- The place a path leads to. -/
def resolve (tree : FileTree) (path : String) : Except Fault Place :=
  if '\x00' ∈ path.toList then .error .nulInName
  else if path = "" then .error .notFound
  else if pathLimit ≤ path.utf8ByteSize then .error .nameTooLong
  else ((parts path.toList).map String.ofList).foldlM tree.step (start path)

/-- What a path leads to. -/
def find (tree : FileTree) (path : String) : Except Fault Entry := do
  match tree.get? (← tree.resolve path) with
  | some entry => .ok entry
  | none => .error .notFound

/-- The bytes of all files together. -/
def volume (tree : FileTree) : Nat := total (fun e => e.2.size) tree.entries

/-- The disk that a tree is all there is of. -/
def disk (tree : FileTree) : Disk where
  find := tree.find
  volume := tree.volume

/-! ## Making trees -/

/-- One step of a walk that makes the directories it misses. -/
def makeStep (reached : FileTree × Place) (part : String) : FileTree × Place :=
  if stays part then reached
  else if part = ".." then (reached.1, reached.2.parent)
  else
    match reached.2.child? part with
    | none => reached
    | some next =>
      if (reached.1.get? next).isSome then (reached.1, next)
      else (reached.1.put next .directory, next)

/-- A tree with a directory at the end of a path, and the place it
has. -/
def makeDirectory (tree : FileTree) (path : List String) (place : Place) : FileTree × Place :=
  path.foldl makeStep (tree, place)

/-- A tree with an entry at the end of a path, and directories on the way
to it. -/
def add (tree : FileTree) (path : String) (entry : Entry) : FileTree :=
  let names := ((parts path.toList).map String.ofList).filter fun part => !stays part
  match entry with
  | .directory => (tree.makeDirectory names (start path)).1
  | .file contents =>
    let reached := tree.makeDirectory names.dropLast (start path)
    match names.getLast?.bind reached.2.child? with
    | some place => reached.1.put place (.file contents)
    | none => reached.1

/-- The tree of the files listed, in order; a path without contents is
that of a directory. -/
def ofList (files : List (String × Option Bytes)) : FileTree :=
  files.foldl (fun tree file =>
    tree.add file.1 (match file.2 with | some contents => .file contents | none => .directory)) {}

end FileTree

end BasicLexer
