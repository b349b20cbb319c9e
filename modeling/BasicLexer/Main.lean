import BasicLexer.Command

/-!
# Main — the command on a real disk

The command is a function of what is on the disk. The disk it is given
starts empty and holds the paths that a run consults as soon as a run
has consulted them; the run that consults no other path is the one that
counts.
-/

namespace BasicLexer

namespace Main

/-- The fault that an operating system's error stands for. -/
def faultOf : IO.Error → Fault
  | .noFileOrDirectory .. => .notFound
  | .inappropriateType .. => .notADirectory
  | e => .other (toString e)

/-- What a path leads to on the real disk. A directory opens and cannot
be read. -/
def look (path : String) : IO (Except Fault Entry) := do
  try
    let contents ← IO.FS.readBinFile path
    return .ok (.file contents.toList)
  catch
    | .inappropriateType _ 21 _ => return .ok .directory
    | e => return .error (faultOf e)

/-- What is said of a text that is no configuration: it gives no options,
and no more is known of it. -/
def explain (_ : String) : String := ""

/-- Run the command until every path it consults is known. -/
partial def settle (known : List (String × Except Fault Entry)) (arguments : Command.Arguments) :
    IO Command.Outcome := do
  let disk := Disk.ofPaths known
  let paths := (Command.consulted disk arguments).filter fun path => (known.lookup path).isNone
  if paths.isEmpty then return Command.run explain disk arguments
  let found ← paths.mapM fun path => return (path, ← look path)
  settle (found ++ known) arguments

end Main

end BasicLexer

open BasicLexer in
/-- List the tokens of the program that the arguments name. -/
def main (arguments : List String) : IO UInt32 := do
  let outcome ← match Command.invocation arguments with
    | .run arguments => Main.settle [] arguments
    | _ => pure (Command.invoke Main.explain (Disk.ofPaths []) arguments)
  (← IO.getStdout).putStr outcome.output
  (← IO.getStderr).putStr outcome.errors
  return UInt32.ofNat outcome.exit
