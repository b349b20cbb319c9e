import BasicLexer.Scanner.Lines

/-!
# Scanner — passes

A pass reads the program from its first line with nothing left of what
came before, and leaves no include file open if it fails.
-/

namespace BasicLexer

namespace Scan

variable {α : Type}

/-- Close every include file if a computation fails. -/
def closing (x : Scan α) : Scan α := fun s =>
  match x s with
  | .ok a s' => .ok a s'
  | .error (.reported diagnostic) s' => .error (.reported diagnostic) s'.closeAll
  | .error (.breach breach) s' => .error (.breach breach) s'

/-- Run a pass over the program. -/
def runPass (pass : Scan α) : Scan α := do
  rewind
  closing pass

end Scan

end BasicLexer
