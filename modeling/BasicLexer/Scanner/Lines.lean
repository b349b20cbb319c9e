import BasicLexer.Scanner.State

/-!
# Scanner — lines and include files

Lines are fetched one at a time, from the innermost open file; an
exhausted include file gives way to the file that asked for it. A file is
included at most once in a pass, whatever asks for it: its name counts as
included from the first request on, found or not.
-/

namespace BasicLexer

/-- The answer to a request for an include file. -/
inductive IncludeStatus where
  /-- The file was opened; its lines come next. -/
  | opened
  /-- The name was requested before; nothing was opened. -/
  | alreadySatisfied
  /-- There is no such file. -/
  | notFound
  deriving DecidableEq, Repr

namespace Scan

/-- A line with a newline at its end. -/
def terminated (line : Bytes) : Bytes :=
  if line.getLast? = some Byte.newline then line else line ++ [Byte.newline]

/-- Fetch the next line. The answer is whether there is one; where there
is none the line is empty. A line that cannot be read is lost. -/
def getLine : Scan Bool := fun s =>
  match s.stack.fetch s.options.maxLine with
  | (.error fault, stack) =>
    let lost := { s with stack, head := s.head.lose }
    fail (.readError lost.activeFile fault) lost
  | (.ok [], stack) => .ok false { s with stack, head := s.head.load [] }
  | (.ok (b :: line), stack) =>
    .ok true { s with stack, head := s.head.load (terminated (b :: line)), saved := none }

/-- Request an include file. -/
def pushInclude (name : String) : Scan IncludeStatus := fun s =>
  match s.included.insert name with
  | ((_, false), _) => .ok .alreadySatisfied s
  | ((entry, true), included) =>
    match s.resolver.open? name with
    | some source => .ok .opened { s with included, stack := s.stack.push source entry }
    | none => .ok .notFound { s with included }

/-- Close every include file. -/
def closeAll : Scan Unit := modify Scanner.closeAll

/-- Start a new pass: no file is included, no line is read, no token is
saved, and the program starts over. -/
def rewind : Scan Unit := fun s =>
  let cleared := { s.closeAll with included := .empty, head := {}, saved := none }
  match cleared.stack.rewind with
  | (.ok (), stack) => .ok () { cleared with stack }
  | (.error fault, stack) => fail (.readError none fault) { cleared with stack }

/-- A line that is fetched comes off the open files, and is given its
newline. -/
theorem fetch_of_getLine {s s' : Scanner} (hrun : getLine s = .ok true s') :
    ∃ b line stack, s.stack.fetch s.options.maxLine = (.ok (b :: line), stack) ∧
      s' = { s with stack, head := s.head.load (terminated (b :: line)), saved := none } := by
  unfold getLine at hrun
  rcases hfetch : s.stack.fetch s.options.maxLine with ⟨_ | _ | ⟨b, line⟩, stack⟩ <;>
    rw [hfetch] at hrun <;> cases hrun
  exact ⟨b, line, stack, rfl, rfl⟩

/-- Where there is no line, the open files are exhausted. -/
theorem fetch_of_getLine_end {s s' : Scanner} (hrun : getLine s = .ok false s') :
    ∃ stack, s.stack.fetch s.options.maxLine = (.ok [], stack) ∧
      s' = { s with stack, head := s.head.load [] } := by
  unfold getLine at hrun
  rcases hfetch : s.stack.fetch s.options.maxLine with ⟨_ | _ | ⟨b, line⟩, stack⟩ <;>
    rw [hfetch] at hrun <;> cases hrun
  exact ⟨stack, rfl, rfl⟩

/-- A fetched line has a byte, and is off the files open. -/
theorem left_getLine {s s' : Scanner} (hrun : getLine s = .ok true s') :
    s'.stack.left < s.stack.left := by
  obtain ⟨b, line, stack, hfetch, rfl⟩ := fetch_of_getLine hrun
  have := Stack.left_fetch hfetch
  simp only [List.length_cons] at this
  simp only
  omega

/-- Where there is no line, nothing comes back onto the files open. -/
theorem left_getLine_le {s s' : Scanner} {found : Bool} (hrun : getLine s = .ok found s') :
    s'.stack.left ≤ s.stack.left := by
  cases found with
  | true => exact Nat.le_of_lt (left_getLine hrun)
  | false =>
    obtain ⟨stack, hfetch, rfl⟩ := fetch_of_getLine_end hrun
    have := Stack.left_fetch hfetch
    simpa using this

end Scan

end BasicLexer
