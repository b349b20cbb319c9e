/-!
# Keywords — the reserved words and their pairs

A word of a program is a keyword exactly when it equals an entry of the
table, the case of ASCII letters aside. Four keywords may be joined by
the word after them to a compound keyword (`END IF`, `DO WHILE`), which
is one token.
-/

namespace BasicLexer

/-- The reserved words, in table order. -/
inductive Keyword where
  | REM | OPTION | INCLUDE | DEF | DIM | AS | IN | LET | IF | THEN | ELSE
  | SELECT | CASE | END | FOR | TO | STEP | NEXT | DO | WHILE | UNTIL | LOOP
  | GOTO | MOD | AND | OR | XOR | NOT | STOP | RETURN | INPUT | PRINT | ASM
  deriving DecidableEq, Repr

namespace Keyword

/-- The table of reserved words. -/
def table : List Keyword :=
  [REM, OPTION, INCLUDE, DEF, DIM, AS, IN, LET, IF, THEN, ELSE, SELECT, CASE, END, FOR, TO,
    STEP, NEXT, DO, WHILE, UNTIL, LOOP, GOTO, MOD, AND, OR, XOR, NOT, STOP, RETURN, INPUT,
    PRINT, ASM]

/-- The spelling of a keyword, in capitals. -/
def name : Keyword → String
  | REM => "REM" | OPTION => "OPTION" | INCLUDE => "INCLUDE" | DEF => "DEF" | DIM => "DIM"
  | AS => "AS" | IN => "IN" | LET => "LET" | IF => "IF" | THEN => "THEN" | ELSE => "ELSE"
  | SELECT => "SELECT" | CASE => "CASE" | END => "END" | FOR => "FOR" | TO => "TO"
  | STEP => "STEP" | NEXT => "NEXT" | DO => "DO" | WHILE => "WHILE" | UNTIL => "UNTIL"
  | LOOP => "LOOP" | GOTO => "GOTO" | MOD => "MOD" | AND => "AND" | OR => "OR" | XOR => "XOR"
  | NOT => "NOT" | STOP => "STOP" | RETURN => "RETURN" | INPUT => "INPUT" | PRINT => "PRINT"
  | ASM => "ASM"

/-- A keyword's place in the table. -/
def index (k : Keyword) : Nat := table.idxOf k

/-- The keyword a word spells, the case of ASCII letters aside. -/
def ofWord? (word : String) : Option Keyword :=
  table.find? fun k => k.name.toList = word.toList.map Char.toUpper

/-- Whether the word after this keyword may complete a compound. -/
def opensCompound : Keyword → Bool
  | END | DO | LOOP | ELSE => true
  | _ => false

/-- Every keyword has a place in the table. -/
theorem mem_table (k : Keyword) : k ∈ table := by cases k <;> decide

end Keyword

/-- The compound keywords, each made of two words. -/
inductive Compound where
  | endDef | endIf | endSelect | endAsm | doWhile | doUntil | loopWhile | loopUntil | elseIf
  deriving DecidableEq, Repr

namespace Compound

/-- The compound keywords there are. -/
def table : List Compound :=
  [endDef, endIf, endSelect, endAsm, doWhile, doUntil, loopWhile, loopUntil, elseIf]

/-- The word a compound begins with. -/
def first : Compound → Keyword
  | endDef | endIf | endSelect | endAsm => .END
  | doWhile | doUntil => .DO
  | loopWhile | loopUntil => .LOOP
  | elseIf => .ELSE

/-- The word that completes a compound. -/
def second : Compound → Keyword
  | endDef => .DEF
  | endIf | elseIf => .IF
  | endSelect => .SELECT
  | endAsm => .ASM
  | doWhile | loopWhile => .WHILE
  | doUntil | loopUntil => .UNTIL

/-- The compound that two words make, if they make one. -/
def ofWords? (first second : Keyword) : Option Compound :=
  table.find? fun c => c.first = first && c.second = second

/-- The spelling of a compound: its words with one space between. -/
def name (c : Compound) : String := c.first.name ++ " " ++ c.second.name

/-- Two words make a compound exactly when they are its words, in
order. -/
theorem ofWords?_eq_some {a b : Keyword} {c : Compound} :
    ofWords? a b = some c ↔ c.first = a ∧ c.second = b := by
  constructor
  · intro h
    have := List.find?_some h
    simpa using this
  · rintro ⟨rfl, rfl⟩
    cases c <;> decide

/-- A compound begins with a keyword that may open one. -/
theorem opensCompound_first (c : Compound) : c.first.opensCompound = true := by
  cases c <;> rfl

end Compound

end BasicLexer
