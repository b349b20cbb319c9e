import BasicLexer.Listing
import BasicLexer.Proofs.Scanner.Follows

/-!
# Listings — one line of a listing

The statement on a line is scanned and then performed: tokens are given
as they are, and a request opens its file. Scanning it follows
`Statement.ofLine` (`Listing.follows_readStatement`); only performing it
touches the open files.
-/

namespace BasicLexer

namespace Listing

open Scan

/-! ## Scanning and performing -/

/-- Scan the name that the rest of a line asks for. -/
def readRequest : Scan String := do
  let name ← Scan.fetchAndRequire .string
  let _ ← Scan.fetchAndRequire .endOfLine
  return name.text

/-- Scan the statement on the line just fetched. -/
def readStatement : Scan Statement := do
  let first ← Scan.getToken
  if first.isKeyword .INCLUDE then
    return .request (← readRequest)
  else if first.isKeyword .REM then
    return .tokens [first, ← endOfText]
  else
    return .tokens (← line first)

/-- Open a file if its name is new; no such file is an error. -/
def grant (name : String) : Scan Unit := do
  match ← Scan.pushInclude name with
  | .notFound => Scan.fail (.includeNotFound name)
  | _ => return ()

/-- Perform a statement, for the tokens it leaves in a listing. -/
def perform : Statement → Scan (List Token)
  | .tokens tokens => return tokens
  | .request name => do
    grant name
    return []

theorem openInclude_eq : openInclude = readRequest >>= grant := by
  simp only [openInclude, readRequest, bind_assoc, pure_bind]
  rfl

/-- A statement is scanned and then performed. -/
theorem statement_eq : statement = readStatement >>= perform := by
  simp only [statement, readStatement, openInclude_eq, bind_assoc]
  congr 1
  funext first
  split
  · simp only [bind_assoc, pure_bind, perform]
  split
  · simp only [bind_assoc, pure_bind, perform]
  · simp only [bind_assoc, pure_bind, perform, bind_pure]

/-! ## Scanning follows the line -/

variable {s : Scanner}

theorem lineFrom_of_end (tokens : List Token) {t : Token} (hend : t.kind = .endOfLine) :
    lineFrom tokens t s = .ok (t :: tokens).reverse s := by
  rw [lineFrom, dif_pos hend]

theorem lineFrom_of_more (tokens : List Token) {t : Token} (hend : t.kind ≠ .endOfLine) :
    lineFrom tokens t s = (Scan.getToken >>= lineFrom (t :: tokens)) s := by
  rw [lineFrom, dif_neg hend]
  simp only [Bind.bind, EStateM.bind]
  split <;> rename_i hrun <;> rw [hrun]

/-- The tokens of a line, after those held in reverse. -/
theorem follows_lineFrom {options : Options} {h : Head} (tokens : List Token) (t : Token)
    (hoptions : s.options = options) (hhead : s.head = h) (hsaved : s.saved = none) :
    Follows (fun all s' found => all = tokens.reverse ++ found.1 ∧ s' = { s with head := found.2 })
      (lineFrom tokens t s) (Lexeme.tokensFrom options t h) := by
  -- the induction is on the line: every token but the last takes of it
  fun_induction Lexeme.tokensFrom options t h generalizing s tokens with
  | case1 t h hend =>
    rw [lineFrom_of_end tokens hend]
    exact ⟨_, s, rfl, List.reverse_cons, by rw [← hhead]⟩
  | case2 t h hend cause hnext =>
    have hget := follows_getToken hsaved
    rw [hoptions, hhead, hnext] at hget
    rw [lineFrom_of_more tokens hend]
    exact hget.bind_error
  | case3 t h hend next h' hnext ih =>
    have hget := follows_getToken hsaved
    rw [hoptions, hhead, hnext] at hget
    obtain ⟨_, _, hok, rfl, rfl⟩ := hget
    have hrest := ih (t :: tokens) (s := { s with head := h' }) hoptions rfl hsaved
    rw [lineFrom_of_more tokens hend]
    simp only [Bind.bind, EStateM.bind, hok]
    refine hrest.map fun all s' found hfound => ?_
    rw [hfound.1, hfound.2, List.reverse_cons, List.append_assoc, List.singleton_append]
    exact ⟨rfl, rfl⟩

/-- Scanning the rest of a line that asks for a file. -/
theorem follows_readRequest (hsaved : s.saved = none) :
    Follows (Scanned s) (readRequest s) (requestFrom s.options s.head) := by
  refine (follows_fetchAndRequire hsaved .string).bind ?_
  rintro _ _ ⟨name, h⟩ - ⟨rfl, rfl⟩
  refine (follows_fetchAndRequire (s := { s with head := h }) hsaved .endOfLine).bind ?_
  rintro _ _ ⟨last, h'⟩ - ⟨rfl, rfl⟩
  exact ⟨_, _, rfl, rfl, rfl⟩

/-- What scanning a statement may change of a scanner: its head, which
says whether a block comment is open. -/
def Taken (s : Scanner) (statement : Statement) (s' : Scanner) (found : Statement × Bool) : Prop :=
  found.1 = statement ∧ ∃ h, h.inComment = found.2 ∧ s' = { s with head := h }

/-- **Scanning a statement follows the line** it is on, and moves nothing
but the head. -/
theorem follows_readStatement {line : Bytes} {inComment : Bool} (hsaved : s.saved = none)
    (hhead : s.head = { ahead := line, inComment }) :
    Follows (Taken s) (readStatement s) (Statement.ofLine s.options inComment line) := by
  have hfirst := follows_getToken hsaved
  rw [hhead] at hfirst
  refine hfirst.bind ?_
  rintro _ _ ⟨first, h⟩ htoken ⟨rfl, rfl⟩
  dsimp only
  by_cases hinclude : first.isKeyword .INCLUDE = true
  · rw [if_pos hinclude, if_pos hinclude]
    refine (follows_readRequest (s := { s with head := h }) hsaved).bind ?_
    rintro _ _ ⟨name, h'⟩ - ⟨rfl, rfl⟩
    exact ⟨_, _, rfl, rfl, h', rfl, rfl⟩
  rw [if_neg hinclude, if_neg hinclude]
  by_cases hrem : first.isKeyword .REM = true
  · have halong := (Lexeme.orderly_read _).along_of_ok (Lexeme.token_eq_ok.mp htoken)
    -- the head is still on the line, so the end is where the line has it
    have hlength : h.lineLength = line.length := by simpa [Head.lineLength] using halong.lineLength
    rw [if_pos hrem, if_pos hrem]
    exact ⟨_, _, rfl, by rw [← hlength], h, rfl, rfl⟩
  · rw [if_neg hrem, if_neg hrem]
    refine (follows_lineFrom (s := { s with head := h }) [] first rfl rfl hsaved).bind ?_
    rintro _ _ ⟨tokens, h'⟩ - ⟨rfl, rfl⟩
    exact ⟨_, _, rfl, rfl, h', rfl, rfl⟩

end Listing

end BasicLexer
