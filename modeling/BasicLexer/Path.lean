/-!
# Paths — where include files are looked for

Programs write file names with either separator, so everything here
takes both and the paths that are tried have slashes only. A relative
name is tried as it is and then under each search directory in turn; a
rooted name is tried as it is and nowhere else.
-/

namespace BasicLexer

namespace Path

/-- Whether a character separates the parts of a path. -/
def isSeparator (c : Char) : Bool := c = '/' || c = '\\'

/-- Whether a character can name a drive. -/
def isDrive (c : Char) : Bool := c.isAlpha

/-- A path with slashes for all its separators. -/
def normalize (path : String) : String :=
  String.ofList (path.toList.map fun c => if c = '\\' then '/' else c)

/-- Whether a path starts at a root: with a separator, or with a drive,
a colon and a separator. -/
def isRooted (path : String) : Bool :=
  match path.toList with
  | [] => false
  | c :: rest =>
    isSeparator c ||
      match rest with
      | d :: e :: _ => isDrive c && d = ':' && isSeparator e
      | _ => false

/-- The part of a path through its last separator, with slashes only;
empty for a path without one. -/
def directory (path : String) : String :=
  String.ofList ((normalize path).toList.reverse.dropWhile (· ≠ '/')).reverse

/-- A path with a separator at its end. -/
def closed (path : String) : String :=
  match path.toList.getLast? with
  | some c => if isSeparator c then path else path ++ "/"
  | none => "/"

/-- A path taken relative to a base. A rooted path stands alone, and so
does any path taken relative to the empty base. -/
def combine (base relative : String) : String :=
  if isRooted relative || base.isEmpty then relative else closed base ++ relative

/-- The paths tried, in order, for a name and a list of search
directories. Empty directories are passed over. -/
def candidates (name : String) (directories : List String) : List String :=
  if isRooted (normalize name) then [normalize name]
  else
    normalize name ::
      (directories.filter fun d => !d.isEmpty).map fun d => combine (normalize d) (normalize name)

end Path

end BasicLexer
