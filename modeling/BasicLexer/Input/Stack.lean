import BasicLexer.Input.Source

/-!
# Input — the stack of open files

The program lies at the bottom, and every include file lies on the file
that asked for it. Lines come from the top; an exhausted include file is
closed and reading goes on below it. The program is never closed.
-/

namespace BasicLexer

/-- An open include file: where its name is among the files included,
and how many lines of it were read. -/
structure OpenFile where
  source : Source
  entry : Nat
  line : Nat := 0

/-- The open files: the program with the lines read of it, and the
include files from the innermost out. -/
structure Stack where
  program : Source
  programLine : Nat := 0
  includes : List OpenFile := []

namespace Stack

/-- How many include files are open. -/
def depth (s : Stack) : Nat := s.includes.length

/-- The number of the last line read from the file on top. -/
def line (s : Stack) : Nat :=
  match s.includes with
  | [] => s.programLine
  | top :: _ => top.line

/-- Which included file is on top, if one is. -/
def active? (s : Stack) : Option Nat := s.includes.head?.map OpenFile.entry

/-- Close every include file. -/
def closeAll (s : Stack) : Stack := { s with includes := [] }

/-- Open an include file on top. -/
def push (s : Stack) (source : Source) (entry : Nat) : Stack :=
  { s with includes := { source, entry } :: s.includes }

/-- Start the program over, its lines counted anew. -/
def rewind (s : Stack) : Except Fault Unit × Stack :=
  let next := s.program.rewind
  (next.1, { s with program := next.2, programLine := 0 })

/-- The number after a line was fetched: an exhausted source counts no
line. -/
def count (line : Bytes) (number : Nat) : Nat := if line = [] then number else number + 1

/-- Fetch a line from the topmost of the files given that has one, or
from the program below them. -/
def fetchFrom (limit : Nat) (s : Stack) : List OpenFile → Except Fault Bytes × Stack
  | [] =>
    match s.program.fetch limit with
    | (.error fault, program) => (.error fault, { s with program, includes := [] })
    | (.ok line, program) =>
      (.ok line, { program, programLine := count line s.programLine, includes := [] })
  | top :: below =>
    match top.source.fetch limit with
    | (.error fault, source) =>
      (.error fault, { s with includes := { top with source } :: below })
    | (.ok [], _) => fetchFrom limit s below
    | (.ok (b :: line), source) =>
      (.ok (b :: line), { s with includes := { top with source, line := top.line + 1 } :: below })

/-- Fetch a line from the topmost file that has one. The empty line says
that the program is exhausted, and then no include file is open. -/
def fetch (limit : Nat) (s : Stack) : Except Fault Bytes × Stack :=
  fetchFrom limit s s.includes

/-- The bytes still to be read of the files listed. -/
def leftOf (files : List OpenFile) : Nat := total (fun f => f.source.left) files

/-- The bytes still to be read of all open files. -/
def left (s : Stack) : Nat := s.program.left + leftOf s.includes

theorem left_fetchFrom {limit : Nat} {s s' : Stack} {files : List OpenFile} {line : Bytes}
    (h : fetchFrom limit s files = (.ok line, s')) :
    line.length + s'.left ≤ s.program.left + leftOf files := by
  induction files with
  | nil =>
    unfold fetchFrom at h
    split at h
    · simp at h
    · rename_i line program hfetch
      simp only [Prod.mk.injEq, Except.ok.injEq] at h
      obtain ⟨rfl, rfl⟩ := h
      have := Source.left_fetch hfetch
      simp only [left, leftOf, total]
      omega
  | cons top below ih =>
    unfold fetchFrom at h
    simp only [leftOf, total] at ih ⊢
    split at h
    · simp at h
    · have := ih h
      omega
    · rename_i b line source hfetch
      simp only [Prod.mk.injEq, Except.ok.injEq] at h
      obtain ⟨rfl, rfl⟩ := h
      have := Source.left_fetch hfetch
      simp only [left, leftOf, total]
      omega

/-- A fetched line is off the stack. -/
theorem left_fetch {limit : Nat} {s s' : Stack} {line : Bytes}
    (h : s.fetch limit = (.ok line, s')) : line.length + s'.left ≤ s.left :=
  left_fetchFrom h

end Stack

end BasicLexer
