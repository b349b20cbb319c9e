import Std.Data.TreeMap

/-!
# Sets that remember the order of insertion

A set of keys in the order they were first inserted, each at a fixed
index until the set is cleared. An index of the keys answers membership,
the list of entries answers what an index stands for.
-/

namespace BasicLexer

/-- Keys in insertion order, with the place of each. -/
structure OrderedSet (α : Type) [Ord α] where
  entries : Array α := #[]
  places : Std.TreeMap α Nat := ∅

namespace OrderedSet

variable {α : Type} [Ord α]

/-- The set without keys. -/
def empty : OrderedSet α := {}

/-- The number of keys. -/
def size (s : OrderedSet α) : Nat := s.entries.size

/-- Whether there are no keys. -/
def isEmpty (s : OrderedSet α) : Bool := s.entries.isEmpty

/-- The keys in insertion order. -/
def toList (s : OrderedSet α) : List α := s.entries.toList

/-- The key at an index. -/
def get? (s : OrderedSet α) (i : Nat) : Option α := s.entries[i]?

/-- The index of a key. -/
def place? (s : OrderedSet α) (a : α) : Option Nat := s.places[a]?

/-- Whether a key is in the set. -/
def contains (s : OrderedSet α) (a : α) : Bool := s.places.contains a

/-- Insert a key. The answer is its index and whether it is new; a key
that was there keeps the index it had. -/
def insert (s : OrderedSet α) (a : α) : (Nat × Bool) × OrderedSet α :=
  match s.places[a]? with
  | some i => ((i, false), s)
  | none =>
    ((s.entries.size, true), ⟨s.entries.push a, s.places.insert a s.entries.size⟩)

end OrderedSet

end BasicLexer
