/-!
# Input — what can go wrong with a file

The failures that opening or reading a file can end in, with the text
each is reported by. Those of the operating system carry its number.
-/

namespace BasicLexer

/-- A failure to open or read a file. -/
inductive Fault where
  /-- Nothing has the name. -/
  | notFound
  /-- A name on the way is not that of a directory. -/
  | notADirectory
  /-- A directory was read as a file. -/
  | isADirectory
  /-- A name on the way is longer than file systems allow. -/
  | nameTooLong
  /-- A name holds the NUL character, which ends names. -/
  | nulInName
  /-- The contents were to be text and are not UTF-8. -/
  | notText
  /-- A failure with a text of its own. -/
  | other (text : String)
  deriving DecidableEq, Repr

namespace Fault

/-- The text a failure is reported by. -/
def message : Fault → String
  | notFound => "No such file or directory (os error 2)"
  | notADirectory => "Not a directory (os error 20)"
  | isADirectory => "Is a directory (os error 21)"
  | nameTooLong => "File name too long (os error 36)"
  | nulInName => "file name contained an unexpected NUL byte"
  | notText => "stream did not contain valid UTF-8"
  | other text => text

end Fault

end BasicLexer
