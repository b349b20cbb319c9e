/-!
# Diagnostics — collectors

A collector keeps the reports it is sent. A handle may be copied, and
all copies of a handle write to and read from one buffer, so that a
client can keep one handle and give another to a scanner.
-/

namespace BasicLexer

/-- A family of handles on collecting buffers: which buffer each handle
stands for, and what every buffer holds. -/
structure Collectors where
  buffers : Array String := #[""]
  handles : Array Nat := #[0]

namespace Collectors

/-- One handle, the first, on one empty buffer. -/
def initial : Collectors := {}

/-- What was sent to a handle's buffer so far. -/
def contents? (c : Collectors) (handle : Nat) : Option String := do
  c.buffers[← c.handles[handle]?]?

/-- Send a text to a handle; a handle that there is not takes nothing. -/
def emit (c : Collectors) (handle : Nat) (text : String) : Collectors :=
  match c.handles[handle]? with
  | some buffer => { c with buffers := c.buffers.modify buffer (· ++ text) }
  | none => c

/-- A new handle on a new, empty buffer. -/
def fresh (c : Collectors) : Nat × Collectors :=
  (c.handles.size, ⟨c.buffers.push "", c.handles.push c.buffers.size⟩)

/-- A new handle on the buffer of an old one. -/
def copy? (c : Collectors) (handle : Nat) : Option (Nat × Collectors) := do
  return (c.handles.size, { c with handles := c.handles.push (← c.handles[handle]?) })

end Collectors

end BasicLexer
