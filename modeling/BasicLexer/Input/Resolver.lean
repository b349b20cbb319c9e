import BasicLexer.Input.Disk
import BasicLexer.Path

/-!
# Input — finding include files

A resolver opens include files by name: out of a table of sources, or
off a disk by way of the search paths. Either holds finitely
many bytes.
-/

namespace BasicLexer

/-- A way to open include files. -/
inductive Resolver where
  /-- Each name stands for the source that the table has for it. -/
  | table (files : List (String × Source))
  /-- A name stands for the first of its search paths that opens. -/
  | search (disk : Disk) (directories : List String)

namespace Resolver

/-- The table of the texts given by name. -/
def ofTexts (files : List (String × Bytes)) : Resolver :=
  .table (files.map fun f => (f.1, .ofBytes f.2))

/-- Open an include file, if it can be found. -/
def open? : Resolver → String → Option Source
  | table files, name => files.lookup name
  | search disk directories, name =>
    (Path.candidates name directories).findSome? fun path => (disk.openSource path).toOption

/-- The bytes of everything a resolver can open. -/
def volume : Resolver → Nat
  | table files => total (fun f => f.2.size) files
  | search disk _ => disk.volume

end Resolver

end BasicLexer
