import BasicLexer.Diagnostic
import BasicLexer.Input.Resolver
import BasicLexer.Input.Stack
import BasicLexer.Line.Reader
import BasicLexer.Options
import BasicLexer.OrderedSet
import BasicLexer.Token

/-!
# Scanner — its state

A scanner holds all that one compilation needs: the open files, the names
of the files included, the line being read, the token saved for later
and the reports made. Independent compilations use independent scanners.

What fails is reported once, where it arises, and every include file is
closed then and there.
-/

namespace BasicLexer

/-- The state of a scanner. The reports are the texts sent out so far,
the last one first. -/
structure Scanner where
  options : Options
  resolver : Resolver
  stack : Stack
  included : OrderedSet String := .empty
  head : Head := {}
  saved : Option Token := none
  reports : List String := []

/-- A computation of a scanner. -/
abbrev Scan := EStateM (Failure Diagnostic) Scanner

namespace Scanner

/-- A scanner on a program, before anything is read. -/
def start (options : Options) (resolver : Resolver) (program : Source) : Scanner :=
  { options, resolver, stack := { program } }

/-- A scanner whose include files are looked for where its options
say. -/
def startOn (disk : Disk) (options : Options) (program : Source) : Scanner :=
  start options (.search disk options.includePaths) program

/-- The name of the include file that is read, if one is. -/
def activeFile (s : Scanner) : Option String :=
  s.stack.active?.map fun entry => (s.included.get? entry).getD ""

/-- Where the scanner is: the file that is read, the number and the text
of the line, and the column of the last token. -/
def position (s : Scanner) : Position where
  file := s.activeFile
  line := s.stack.line
  text := s.head.line.text
  column := s.head.tokenStart

/-- With another head on the same line the place differs in the column
alone. -/
theorem position_of_line {s : Scanner} {h : Head} (hline : h.line = s.head.line) :
    position { s with head := h } = { s.position with column := h.tokenStart } := by
  simp only [position, activeFile, hline]

/-- The text sent out so far. -/
def reportText (s : Scanner) : String := String.join s.reports.reverse

/-- Close every include file. -/
def closeAll (s : Scanner) : Scanner := { s with stack := s.stack.closeAll }

/-- The names of the files included, in order. -/
def includedFiles (s : Scanner) : List String := s.included.toList

end Scanner

namespace Scan

variable {α : Type}

/-- Fail of a cause where the scanner is: the report goes out and every
include file is closed. -/
def fail (cause : Cause) : Scan α := fun s =>
  let diagnostic := Diagnostic.ofCause cause (some s.position)
  .error (.reported diagnostic) { s with reports := diagnostic.render :: s.reports }.closeAll

/-- Read off the line. What a reader fails of, the scanner fails of. -/
def reading (x : Reader α) : Scan α := fun s =>
  match x s.head with
  | .ok a head => .ok a { s with head }
  | .error (.reported cause) head => fail cause { s with head }
  | .error (.breach breach) head => .error (.breach breach) { s with head }

/-- Where reading gives a value, nothing moves but the head. -/
theorem reading_eq_ok {x : Reader α} {s s' : Scanner} {a : α} (hrun : reading x s = .ok a s') :
    ∃ head, x s.head = .ok a head ∧ s' = { s with head } := by
  simp only [reading] at hrun
  rcases hread : x s.head with ⟨_, head⟩ | ⟨_ | _, _⟩ <;> rw [hread] at hrun <;> cases hrun
  exact ⟨head, rfl, rfl⟩

/-- Where reading fails of a diagnostic, it is that of a cause at the place
where the head was left. -/
theorem reading_eq_reported {x : Reader α} {s s' : Scanner} {d : Diagnostic}
    (hrun : reading x s = .error (.reported d) s') :
    ∃ cause head, x s.head = .error (.reported cause) head ∧
      d = .ofCause cause (some (Scanner.position { s with head })) := by
  simp only [reading] at hrun
  rcases hread : x s.head with ⟨_, head⟩ | ⟨cause | _, head⟩ <;> rw [hread] at hrun <;> cases hrun
  exact ⟨cause, head, rfl, rfl⟩

end Scan

end BasicLexer
