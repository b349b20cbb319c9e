import BasicLexer.Diagnostic.Cause
import BasicLexer.Position

/-!
# Diagnostics — the report of a failed pass

A diagnostic is a cause told in words, with the place it arose at. Its
report is what a person reads: the error, the place, the line itself and
a caret under the column.
-/

namespace BasicLexer

/-- The one thing that ends a pass: a code, its text and, where there
was an active source, the place. -/
structure Diagnostic where
  code : Nat
  text : String
  position : Option Position := none
  deriving DecidableEq, Repr

namespace Diagnostic

/-- The diagnostic of a cause at a place. -/
def ofCause (cause : Cause) (position : Option Position) : Diagnostic :=
  ⟨cause.code, cause.text, position⟩

/-- A diagnostic in one line. -/
def summary (d : Diagnostic) : String := "error: " ++ d.text

/-- The part of a report that shows a place: its label, the line and the
caret, each on a line of its own. -/
def renderPosition (p : Position) : String :=
  "  " ++ p.label ++ "\n    " ++ p.shownText ++ "\n    " ++ p.caret ++ "\n"

/-- The full report of a diagnostic. -/
def render (d : Diagnostic) : String :=
  d.summary ++ "\n" ++
    match d.position with
    | some p => renderPosition p
    | none => ""

end Diagnostic

end BasicLexer
