import BasicLexer.Input.Fault
import BasicLexer.Input.Feed

/-!
# Input — sources

A source hands out the lines of a program or of an include file and can
be started over. Any call to it may fail; which calls do is part of the
source, so that a run over a failing medium is as determined as any
other.
-/

namespace BasicLexer

/-- A supply of lines: all its contents, what is still to be read of
them, and the calls that fail. Fetches and rewinds are counted apart,
from zero, failed calls included. -/
structure Source where
  contents : Feed
  pending : Feed
  fetchFault : Nat → Option Fault := fun _ => none
  rewindFault : Nat → Option Fault := fun _ => none
  fetches : Nat := 0
  rewinds : Nat := 0

namespace Source

/-- The source of a text held in memory, which arrives in one piece. -/
def ofBytes (contents : Bytes) : Source := { contents := [contents], pending := [contents] }

/-- The source of a file, which arrives through a buffer of eight
kilobytes. -/
def ofFile (contents : Bytes) : Source :=
  let feed := Feed.ofBytes 8191 contents
  { contents := feed, pending := feed }

/-- A directory opened as a file: it opens, and every fetch fails. -/
def ofDirectory : Source :=
  { contents := [], pending := [], fetchFault := fun _ => some .isADirectory }

/-- A source that fails at the fetches and the rewinds given. -/
def failingAt (s : Source) (fetches rewinds : List Nat) (fault : Fault) : Source :=
  { s with
    fetchFault := fun n => if n ∈ fetches then some fault else none
    rewindFault := fun n => if n ∈ rewinds then some fault else none }

/-- Fetch a line of at most `limit` bytes; the empty line says that the
source is exhausted. A failing fetch reads nothing. -/
def fetch (limit : Nat) (s : Source) : Except Fault Bytes × Source :=
  match s.fetchFault s.fetches with
  | some fault => (.error fault, { s with fetches := s.fetches + 1 })
  | none =>
    let next := s.pending.readLine limit
    (.ok next.1, { s with fetches := s.fetches + 1, pending := next.2 })

/-- Start over from the first line. A failing rewind leaves the place
reached. -/
def rewind (s : Source) : Except Fault Unit × Source :=
  match s.rewindFault s.rewinds with
  | some fault => (.error fault, { s with rewinds := s.rewinds + 1 })
  | none => (.ok (), { s with rewinds := s.rewinds + 1, pending := s.contents })

/-- The bytes still to be read. -/
def left (s : Source) : Nat := s.pending.size

/-- The bytes there are in all. -/
def size (s : Source) : Nat := s.contents.size

/-- A fetched line is off the source. -/
theorem left_fetch {limit : Nat} {s s' : Source} {line : Bytes}
    (h : s.fetch limit = (.ok line, s')) : line.length + s'.left = s.left := by
  unfold fetch at h
  split at h
  · simp at h
  · simp only [Prod.mk.injEq, Except.ok.injEq] at h
    obtain ⟨rfl, rfl⟩ := h
    exact Feed.size_readLine limit s.pending

end Source

end BasicLexer
