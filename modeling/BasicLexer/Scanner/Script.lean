import BasicLexer.Scanner.Pass
import BasicLexer.Scanner.Stream

/-!
# Scanner — scripts of operations

A script is what a client does with a scanner, written down: one
operation after another, with passes that run scripts of their own. Its
run answers every operation, and says after each where the scanner
stands and what text it sent out. Whatever a client can do to a scanner,
some script does.
-/

namespace BasicLexer

/-- A token that an operation is given: one kept in a register, or one
written out. -/
inductive TokenRef where
  | register (name : String)
  | literal (token : Token)
  deriving DecidableEq, Repr

/-- The operations on a scanner, passes aside. -/
inductive Action where
  | getLine
  | lineText
  /-- Take a token and keep it in a register. -/
  | getToken (register : String)
  | saveToken (token : TokenRef)
  | savedToken
  | requireToken (token : TokenRef) (kind : Kind)
  | fetchAndRequire (kind : Kind)
  | nextChar
  /-- Read so many times. -/
  | nextChars (count : Nat)
  | skipSpaces
  | pushBack
  | pushInclude (name : String)
  | includedFiles
  | closeAll
  | rewind
  | position
  | options
  /-- Fail in the client's own words. -/
  | fail (message : Message) (arguments : List String)
  | scanAll
  /-- Take so many steps of a new stream. -/
  | tokens (count : Nat)
  deriving DecidableEq, Repr

/-- A run of operations. -/
inductive Script where
  | done
  | act (action : Action) (rest : Script)
  /-- Run a script as a pass, then go on. -/
  | pass (body rest : Script)
  deriving DecidableEq, Repr

/-- The answer to an operation. -/
inductive Reply where
  | nothing
  | line (text : Option Bytes)
  | token (token : Option Token)
  | byte (byte : Option Byte)
  | bytes (bytes : List (Option Byte))
  | status (status : IncludeStatus)
  | names (names : List String)
  | position (position : Position)
  | options (options : Options)
  | tokens (tokens : List Token)
  | items (items : List Stream.Item)
  | failed (failure : Failure Diagnostic)
  deriving DecidableEq, Repr

/-- Where a scanner stands. -/
structure Standing where
  line : Nat
  depth : Nat
  column : Nat
  file : Option String
  saved : Option Kind
  deriving DecidableEq, Repr

/-- The record of a script's run: for each operation the answer, where
the scanner stood after it, and the text it sent out. -/
inductive Transcript where
  | done
  | act (reply : Reply) (standing : Standing) (sent : String) (rest : Transcript)
  /-- A pass: its own record, the diagnostic it failed of if it failed,
  and the text sent out before it began. -/
  | pass (body : Transcript) (failed : Option Diagnostic) (standing : Standing) (sent : String)
      (rest : Transcript)
  deriving DecidableEq, Repr

/-- A scanner with the tokens its client keeps. -/
structure Session where
  scanner : Scanner
  registers : List (String × Token) := []

namespace Scanner

/-- Where a scanner stands. -/
def standing (s : Scanner) : Standing where
  line := s.stack.line
  depth := s.stack.depth
  column := s.head.tokenStart
  file := s.activeFile
  saved := s.saved.map Token.kind

/-- The text a scanner sent out since it was in an earlier state. -/
def sentSince (s earlier : Scanner) : String :=
  String.join (s.reports.take (s.reports.length - earlier.reports.length)).reverse

end Scanner

namespace Stream

/-- So many steps of a stream. -/
def steps : Nat → Stream → Scanner → List Item × Scanner
  | 0, _, s => ([], s)
  | count + 1, stream, s =>
    let next := advance stream s
    let rest := steps count next.2.1 next.2.2
    (next.1 :: rest.1, rest.2)

end Stream

namespace Scan

/-- Read so many times, end of the line or not. -/
def nextChars : Nat → Scan (List (Option Byte))
  | 0 => return []
  | count + 1 => do
    let b ← reading Reader.next
    return b :: (← nextChars count)

end Scan

namespace Session

/-- The token a reference stands for. -/
def token? (s : Session) : TokenRef → Option Token
  | .register name => s.registers.lookup name
  | .literal token => some token

/-- Run an operation of the scanner and make a reply of its value. -/
def perform {α : Type} (s : Session) (x : Scan α) (reply : α → Scanner → Reply) :
    Reply × Session :=
  match x s.scanner with
  | .ok a scanner => (reply a scanner, { s with scanner })
  | .error failure scanner => (.failed failure, { s with scanner })

/-- Run an operation. An operation on a register that holds no token does
nothing. -/
def act (s : Session) : Action → Reply × Session
  | .getLine =>
    s.perform Scan.getLine fun found scanner =>
      .line (if found then some scanner.head.line else none)
  | .lineText => (.line (some s.scanner.head.line), s)
  | .getToken register =>
    match Scan.getToken s.scanner with
    | .ok token scanner =>
      (.token (some token), { scanner, registers := (register, token) :: s.registers })
    | .error failure scanner => (.failed failure, { s with scanner })
  | .saveToken ref =>
    match s.token? ref with
    | some token => s.perform (Scan.saveToken token) fun _ _ => .nothing
    | none => (.nothing, s)
  | .savedToken => (.token s.scanner.saved, s)
  | .requireToken ref kind =>
    match s.token? ref with
    | some token => s.perform (Scan.requireToken token kind) fun t _ => .token (some t)
    | none => (.nothing, s)
  | .fetchAndRequire kind =>
    s.perform (Scan.fetchAndRequire kind) fun t _ => .token (some t)
  | .nextChar => s.perform (Scan.reading Reader.next) fun b _ => .byte b
  | .nextChars count => s.perform (Scan.nextChars count) fun bs _ => .bytes bs
  | .skipSpaces => s.perform (Scan.reading Reader.skipBlanks) fun b _ => .byte b
  | .pushBack => s.perform (Scan.reading Reader.pushBack) fun _ _ => .nothing
  | .pushInclude name => s.perform (Scan.pushInclude name) fun status _ => .status status
  | .includedFiles => (.names s.scanner.includedFiles, s)
  | .closeAll => s.perform Scan.closeAll fun _ _ => .nothing
  | .rewind => s.perform Scan.rewind fun _ _ => .nothing
  | .position => (.position s.scanner.position, s)
  | .options => (.options s.scanner.options, s)
  | .fail message arguments =>
    s.perform (Scan.fail (.stated message arguments) : Scan Unit) fun _ _ => .nothing
  | .scanAll => s.perform Scan.scanAll fun tokens _ => .tokens tokens
  | .tokens count =>
    let steps := Stream.steps count {} s.scanner
    (.items steps.1, { s with scanner := steps.2 })

end Session

namespace Script

/-- The diagnostic a reply reports, if it reports one. -/
def reported : Reply → Option Diagnostic
  | .failed (.reported diagnostic) => some diagnostic
  | _ => none

/-- Run a script. A script that runs as a pass ends at the first
diagnostic, which is what the pass fails of; one that runs on its own
goes on. A pass that fails within a script leaves no include file open
and does not fail the script, and a breach fails nothing. -/
def run (asPass : Bool) : Script → Session → (Transcript × Option Diagnostic) × Session
  | done, s => ((.done, none), s)
  | act action rest, s =>
    let step := s.act action
    let record := Transcript.act step.1 step.2.scanner.standing
      (step.2.scanner.sentSince s.scanner)
    match asPass, reported step.1 with
    | true, some diagnostic => ((record .done, some diagnostic), step.2)
    | _, _ =>
      let next := run asPass rest step.2
      ((record next.1.1, next.1.2), next.2)
  | pass body rest, s =>
    match Scan.rewind s.scanner with
    | .ok () begun =>
      let inner := run true body { s with scanner := begun }
      let after :=
        if inner.1.2.isSome then { inner.2 with scanner := inner.2.scanner.closeAll }
        else inner.2
      let next := run asPass rest after
      ((.pass inner.1.1 inner.1.2 after.scanner.standing (begun.sentSince s.scanner) next.1.1,
        next.1.2), next.2)
    | .error failure failed =>
      let after := { s with scanner := failed }
      let next := run asPass rest after
      ((.pass .done (reported (.failed failure)) failed.standing (failed.sentSince s.scanner)
        next.1.1, next.1.2), next.2)

/-- Run a script on a scanner. -/
def transcript (script : Script) (s : Scanner) : Transcript :=
  (run false script { scanner := s }).1.1

end Script

end BasicLexer
