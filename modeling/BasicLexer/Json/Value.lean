import BasicLexer.Json.Lexeme

/-!
# JSON — values

A JSON text stands for a value. It is read lexeme by lexeme with the
containers that are open on a stack, so nesting may go to any depth.
Members keep the order and the repetitions they are written with.
-/

namespace BasicLexer

/-- A JSON value. Strings and keys are kept in pieces, for half a pair of
units is a string and no text. -/
inductive Json where
  | null
  | bool (b : Bool)
  | number (n : Json.Number)
  | string (pieces : List Json.Piece)
  | array (items : List Json)
  | object (members : List (List Json.Piece × Json))

namespace Json

/-- A container that is open: an array with its items so far, or an
object with its members so far and the key that waits for a value. Both
are held in reverse. -/
inductive Frame where
  | array (items : List Json)
  | object (members : List (List Piece × Json)) (key : List Piece)

/-- What may come next. -/
inductive Expected where
  /-- A value. -/
  | value
  /-- A value, or the end of the array just opened. -/
  | item
  /-- A key. -/
  | key (members : List (List Piece × Json))
  /-- A key, or the end of the object just opened. -/
  | member
  /-- The colon after a key. -/
  | colon (members : List (List Piece × Json)) (key : List Piece)
  /-- A comma, or the end of the array. -/
  | moreItems (items : List Json)
  /-- A comma, or the end of the object. -/
  | moreMembers (members : List (List Piece × Json))
  /-- Nothing: the value is complete. -/
  | nothing (value : Json)

/-- A reading under way: what may come next, inside which containers. -/
structure Reading where
  expected : Expected
  frames : List Frame

/-- The reading after a value is complete. -/
def complete (value : Json) : List Frame → Reading
  | [] => ⟨.nothing value, []⟩
  | .array items :: frames => ⟨.moreItems (value :: items), frames⟩
  | .object members key :: frames => ⟨.moreMembers ((key, value) :: members), frames⟩

/-- The reading after a lexeme that begins a value. -/
def begin (frames : List Frame) : Lexeme → Option Reading
  | .null => some (complete .null frames)
  | .true => some (complete (.bool true) frames)
  | .false => some (complete (.bool false) frames)
  | .number n => some (complete (.number n) frames)
  | .string pieces => some (complete (.string pieces) frames)
  | .openArray => some ⟨.item, frames⟩
  | .openObject => some ⟨.member, frames⟩
  | _ => none

/-- The reading after one lexeme more. -/
def step (r : Reading) (x : Lexeme) : Option Reading :=
  match r.expected, x with
  | .value, x => begin r.frames x
  | .item, .closeArray => some (complete (.array []) r.frames)
  | .item, x => begin (.array [] :: r.frames) x
  | .member, .closeObject => some (complete (.object []) r.frames)
  | .member, .string key => some ⟨.colon [] key, r.frames⟩
  | .key members, .string key => some ⟨.colon members key, r.frames⟩
  | .colon members key, .colon => some ⟨.value, .object members key :: r.frames⟩
  | .moreItems items, .comma => some ⟨.value, .array items :: r.frames⟩
  | .moreItems items, .closeArray => some (complete (.array items.reverse) r.frames)
  | .moreMembers members, .comma => some ⟨.key members, r.frames⟩
  | .moreMembers members, .closeObject => some (complete (.object members.reverse) r.frames)
  | _, _ => none

/-- The value of a run of lexemes. -/
def ofLexemes? (xs : List Lexeme) : Option Json := do
  match (← xs.foldlM step ⟨.value, []⟩).expected with
  | .nothing value => some value
  | _ => none

/-- The value a text stands for. -/
def ofText? (text : String) : Option Json := do
  ofLexemes? (← lexemes text.toList)

end Json

end BasicLexer
