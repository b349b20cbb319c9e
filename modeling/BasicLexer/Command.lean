import BasicLexer.Command.Arguments
import BasicLexer.Listing
import BasicLexer.Options.Config

/-!
# Command — listing a program

The command lists the tokens of a program and of all it includes. It is
all or nothing: either the whole listing goes to the output, or one
report goes to the errors and nothing to the output. What a report says of
a text that is no configuration is given to the command.
-/

namespace BasicLexer

namespace Command

/-- What a run of the command comes to. -/
structure Outcome where
  exit : Nat
  output : String := ""
  errors : String := ""
  deriving DecidableEq, Repr

/-- Why a run has no scanner: its configuration cannot be loaded, or its
program cannot be opened. -/
inductive StartError where
  | misconfigured (path : String) (cause : Options.LoadError)
  | unopened (path : String) (fault : Fault)
  deriving DecidableEq, Repr

/-- The text of a failure to start. -/
def StartError.message (explain : String → String) : StartError → String
  | misconfigured path cause => "Failed to read " ++ path ++ ": " ++ cause.message explain
  | unopened path fault => "cannot open " ++ path ++ ": " ++ fault.message

/-- How the command is used. -/
def usage : String :=
  "Usage: basic-tokens [OPTIONS] <FILE>\n\n" ++
  "Lists the tokens of a BASIC program and of the files it includes.\n\n" ++
  "  -I, --include <DIR>    Search a directory for include files\n" ++
  "  -c, --config <FILE>    Take the scan options from a file\n" ++
  "      --strict-literals  Refuse numbers that do not fit a machine word\n" ++
  "      --list-files       List the included files after the tokens\n" ++
  "  -h, --help             Print this text\n"

/-- The options of a run: those of the configuration, with the
directories given as arguments and then the program's own to search, and
strict where that is asked for. -/
def options (disk : Disk) (arguments : Arguments) : Except StartError Options := do
  let base ←
    match arguments.config with
    | none => .ok {}
    | some path => (Options.load disk path).mapError (.misconfigured path)
  let own := Path.directory arguments.file
  let directories := arguments.includeDirs ++ (if own = "" then [] else [own])
  let found := directories.foldl Options.addIncludePath base
  return if arguments.strictLiterals then found.setLiteralOverflow .error else found

/-- The scanner of a run, before its pass. -/
def scanner (disk : Disk) (arguments : Arguments) : Except StartError Scanner := do
  let options ← options disk arguments
  match disk.openSource arguments.file with
  | .ok program => return .startOn disk options program
  | .error fault => .error (.unopened arguments.file fault)

/-- The names that are listed after the tokens. -/
def renderFiles (names : List String) : String := String.join (names.map (· ++ "\n"))

/-- Run the command. -/
def run (explain : String → String) (disk : Disk) (arguments : Arguments) : Outcome :=
  match scanner disk arguments with
  | .error cause => { exit := 1, errors := "error: " ++ cause.message explain ++ "\n" }
  | .ok s =>
    match Listing.make s with
    | .ok tokens s' =>
      { exit := 0
        output := Listing.render tokens ++
          (if arguments.listFiles then renderFiles s'.includedFiles else "") }
    | .error _ s' => { exit := 1, errors := s'.reportText }

/-- Run the command with its arguments as they are given. -/
def invoke (explain : String → String) (disk : Disk) (arguments : List String) : Outcome :=
  match invocation arguments with
  | .run arguments => run explain disk arguments
  | .help => { exit := 0, output := usage }
  | .misuse => { exit := 2, errors := usage }

/-- The paths that a run opens, or might: those of the configuration and
of the program, and the candidates for every name the program asks
for. -/
def consulted (disk : Disk) (arguments : Arguments) : List String :=
  arguments.config.toList ++ arguments.file ::
    match scanner disk arguments with
    | .error _ => []
    | .ok s =>
      let final := match Listing.make s with
        | .ok _ s' => s'
        | .error _ s' => s'
      final.includedFiles.flatMap fun name => Path.candidates name s.options.includePaths

end Command

end BasicLexer
