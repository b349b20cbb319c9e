/-!
# Command — its arguments

The command takes one program file and options, in any order. An option's
value is the next argument or is attached to it; an argument that begins
with a dash is no value. After two dashes alone every argument is a
file.
-/

namespace BasicLexer

namespace Command

/-- What the command is asked to do. -/
structure Arguments where
  file : String
  includeDirs : List String := []
  config : Option String := none
  strictLiterals : Bool := false
  listFiles : Bool := false
  deriving DecidableEq, Repr

/-- How arguments are understood. -/
inductive Invocation where
  | run (arguments : Arguments)
  | help
  | misuse
  deriving DecidableEq, Repr

/-- The arguments understood so far. -/
structure Gathered where
  file : Option String := none
  includeDirs : List String := []
  config : Option String := none
  strictLiterals : Bool := false
  listFiles : Bool := false
  deriving DecidableEq, Repr

/-- The options that take a value. -/
inductive Valued where
  | includeDir
  | config
  deriving DecidableEq, Repr

/-- What one argument says. -/
inductive Word where
  /-- A file, or the value of the option before it. -/
  | plain (text : String)
  /-- Two dashes: files follow. -/
  | separator
  | valued (option : Valued)
  | attached (option : Valued) (value : String)
  | strictLiterals
  | listFiles
  | help
  | unknown
  deriving DecidableEq, Repr

/-- The option that takes a value and has a long name. -/
def valuedOfName? (name : List Char) : Option Valued :=
  if name = "include".toList then some .includeDir
  else if name = "config".toList then some .config
  else none

/-- What an argument after two dashes says. -/
def wordOfLong (text : List Char) : Word :=
  let name := text.takeWhile (· ≠ '=')
  match valuedOfName? name, text.dropWhile (· ≠ '=') with
  | some option, '=' :: value => .attached option (String.ofList value)
  | some option, _ => .valued option
  | none, [] =>
    if name = "strict-literals".toList then .strictLiterals
    else if name = "list-files".toList then .listFiles
    else if name = "help".toList then .help
    else .unknown
  | none, _ => .unknown

/-- What an argument after one dash says. A value may be attached with or
without an equals sign. -/
def wordOfShort (letter : Char) (rest : List Char) : Word :=
  if letter = 'h' then .help
  else if letter = 'I' ∨ letter = 'c' then
    let option := if letter = 'I' then Valued.includeDir else Valued.config
    match rest with
    | [] => .valued option
    | '=' :: value => .attached option (String.ofList value)
    | value => .attached option (String.ofList value)
  else .unknown

/-- What an argument says. A dash alone is a file. -/
def word (argument : String) : Word :=
  match argument.toList with
  | ['-', '-'] => .separator
  | '-' :: '-' :: text => wordOfLong text
  | '-' :: letter :: rest => wordOfShort letter rest
  | _ => .plain argument

namespace Gathered

/-- One file more; there is room for one. -/
def addFile (p : Gathered) (file : String) : Option Gathered :=
  if p.file.isSome then none else some { p with file := some file }

/-- One option with its value more; one configuration is all there may
be. -/
def addValued (p : Gathered) (option : Valued) (value : String) : Option Gathered :=
  match option with
  | .includeDir => some { p with includeDirs := p.includeDirs ++ [value] }
  | .config => if p.config.isSome then none else some { p with config := some value }

/-- Strictness asked for, which it may be once. -/
def addStrict (p : Gathered) : Option Gathered :=
  if p.strictLiterals then none else some { p with strictLiterals := true }

/-- The list of files asked for, which it may be once. -/
def addListFiles (p : Gathered) : Option Gathered :=
  if p.listFiles then none else some { p with listFiles := true }

/-- What is asked for once all arguments are understood. -/
def finish (p : Gathered) : Invocation :=
  match p.file with
  | some file => .run { p with file }
  | none => .misuse

end Gathered

/-- Understand arguments from the left. The first that cannot be
understood makes the whole a misuse, the first that asks for help gets
it. -/
def understand : Option Gathered → List String → Invocation
  | none, _ => .misuse
  | some p, [] => p.finish
  | some p, argument :: rest =>
    match word argument with
    | .plain file => understand (p.addFile file) rest
    | .separator =>
      match rest.foldlM Gathered.addFile p with
      | some p => p.finish
      | none => .misuse
    | .attached option value => understand (p.addValued option value) rest
    | .valued option =>
      match rest with
      | next :: rest =>
        match word next with
        | .plain value => understand (p.addValued option value) rest
        | _ => .misuse
      | [] => .misuse
    | .strictLiterals => understand p.addStrict rest
    | .listFiles => understand p.addListFiles rest
    | .help => .help
    | .unknown => .misuse

/-- What the command is asked to do by its arguments. -/
def invocation (arguments : List String) : Invocation := understand (some {}) arguments

end Command

end BasicLexer
