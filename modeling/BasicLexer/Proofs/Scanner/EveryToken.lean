import BasicLexer.Proofs.Reading.LeftOpen
import BasicLexer.Proofs.Scanner.AllLines
import BasicLexer.Proofs.Scanner.Follows
import BasicLexer.Proofs.Scanner.LineByLine

/-!
# Scanner — every token of a program

A stream fetches a line whenever the last has ended, so what `Scan.scanAll`
gives is put together from the tokens of the logical lines, with nothing
passed from one line to the next but whether a block comment is open:
`Stream.tokensOf`, which the stream follows (`Scan.follows_scanAll`). On a
line without quotes these tokens, and whether the line leaves a comment
open, are a matter of what is shown of it (`Lexeme.tokensAt_of_unquoted`).
-/

namespace BasicLexer

open Grammar

namespace Lexeme

/-! ## The tokens of a line -/

/-- The tokens from a head on through the end of its line, and the head
there. -/
def tokensAt (options : Options) (h : Head) : Except Cause (List Token × Head) := do
  let (first, h) ← token options h
  tokensFrom options first h

/-- The tokens of a line that begins inside a block comment or not, and
whether it leaves one open. -/
def tokensOf (options : Options) (inComment : Bool) (line : Bytes) :
    Except Cause (List Token × Bool) :=
  (tokensAt options { ahead := line, inComment }).map fun found => (found.1, found.2.inComment)

variable {options : Options} {t : Token} {h h' : Head} {cause : Cause}

theorem tokensFrom_of_end (hend : t.kind = .endOfLine) :
    tokensFrom options t h = .ok ([t], h) := by
  rw [tokensFrom, dif_pos hend]

theorem tokensFrom_of_more (hend : t.kind ≠ .endOfLine) :
    tokensFrom options t h = (tokensAt options h).map fun rest => (t :: rest.1, rest.2) := by
  rw [tokensFrom, dif_neg hend, tokensAt]
  split <;> rename_i hnext <;> rw [hnext] <;> rfl

theorem tokensAt_of_ok (hread : read options h = .ok t h') :
    tokensAt options h = tokensFrom options t h' := by
  rw [tokensAt, token_eq_ok.mpr hread]
  rfl

theorem tokensAt_of_error (hread : read options h = .error (.reported cause) h') :
    tokensAt options h = .error cause := by
  rcases token_cases options h with ⟨t, h₁, hread', -⟩ | ⟨cause', h₁, hread', htoken⟩ <;>
    rw [hread] at hread' <;> cases hread'
  rw [tokensAt, htoken]
  rfl

/-- What a scan of a line comes to: its tokens, if none is refused. -/
def ofScan (scanned : List Token × Option Cause) : Except Cause (List Token) :=
  match scanned.2 with
  | some cause => .error cause
  | none => .ok scanned.1

theorem ofScan_cons (t : Token) (scanned : List Token × Option Cause) :
    ofScan (t :: scanned.1, scanned.2) = (ofScan scanned).map (t :: ·) := by
  obtain ⟨tokens, _ | cause⟩ := scanned <;> rfl

/-- **From any head on a line without quotes** the tokens are those of the
grammar, and the head at the end of the line is inside a comment if the
line leaves one open. -/
theorem tokensAt_of_unquoted (options : Options) (hplaced : h.Placed)
    (hquotes : ∀ b ∈ h.visible, b ≠ Byte.doubleQuote ∧ b ≠ Byte.singleQuote) :
    (tokensAt options h).map (fun found => (found.1, found.2.inComment)) =
      (ofScan (scan options h.lineLength h.sights)).map (·, h.leavesOpen) := by
  induction hlength : h.sights.length using Nat.strongRecOn generalizing h with
  | ind n ih =>
    rcases read_of_unquoted options hplaced hquotes with
      ⟨h', hread, hahead, hscan⟩ | ⟨cause, h', hread, hscan⟩ |
      ⟨t, h', hread, hkind, halong, hshorter, hquotes', hscan⟩ <;> rw [hscan]
    · rw [tokensAt_of_ok hread, tokensFrom_of_end rfl, ← leavesOpen_read hquotes hread,
        Head.leavesOpen_of_ahead_nil hahead]
      rfl
    · rw [tokensAt_of_error hread]
      rfl
    · have hrest := ih _ (hlength ▸ hshorter) (halong.placed hplaced) hquotes' rfl
      rw [leavesOpen_read hquotes hread] at hrest
      have hcons : (tokensAt options h).map (fun found => (found.1, found.2.inComment)) =
          ((tokensAt options h').map fun found => (found.1, found.2.inComment)).map
            fun rest => (t :: rest.1, rest.2) := by
        rw [tokensAt_of_ok hread, tokensFrom_of_more hkind]
        cases tokensAt options h' <;> rfl
      rw [hcons, hrest, ofScan_cons]
      cases ofScan (scan options h'.lineLength h'.sights) <;> rfl

/-- Reading a line to its end gives them. -/
theorem tokensAt_of_readTokens (options : Options) (h : Head) :
    match readTokens options h with
    | .ok tokens h' => tokensAt options h = .ok (tokens, h')
    | .error (.reported cause) _ => tokensAt options h = .error cause
    | .error (.breach _) _ => False := by
  fun_induction readTokens options h with
  | case1 h failure h' hread =>
    cases failure with
    | reported cause => exact tokensAt_of_error hread
    | breach breach => exact (orderly_read options).not_breach hread
  | case2 h t h' hread hend => rw [tokensAt_of_ok hread, tokensFrom_of_end hend]
  | case3 h t h' hread hend rest h'' hrest ih =>
    rw [hrest] at ih
    rw [tokensAt_of_ok hread, tokensFrom_of_more hend, ih]
    rfl
  | case4 h t h' hread hend failure h'' hrest ih =>
    rw [hrest] at ih
    cases failure with
    | reported cause =>
      dsimp only at ih ⊢
      rw [tokensAt_of_ok hread, tokensFrom_of_more hend, ih]
      rfl
    | breach breach => exact ih

end Lexeme

namespace Stream

/-! ## The tokens of lines -/

/-- The tokens of lines, through that of the end of the file, where the
first begins inside a block comment or not. -/
def tokensOf (options : Options) (inComment : Bool) : List Bytes → Except Cause (List Token)
  | [] => .ok [{ kind := .endOfFile, offset := 0 }]
  | line :: rest =>
    match Lexeme.tokensOf options inComment line with
    | .error cause => .error cause
    | .ok (these, isOpen) => (tokensOf options isOpen rest).map (these ++ ·)

/-- They are those of the first line, and then those of all others. -/
theorem tokensOf_cons (options : Options) (inComment : Bool) (line : Bytes) (rest : List Bytes) :
    tokensOf options inComment (line :: rest) =
      (Lexeme.tokensAt options { ahead := line, inComment } >>= fun found =>
        (tokensOf options found.2.inComment rest).map (found.1 ++ ·)) := by
  rw [tokensOf, Lexeme.tokensOf]
  cases Lexeme.tokensAt options { ahead := line, inComment } <;> rfl

end Stream

namespace Scan

variable {s : Scanner}

/-- The tokens of a line, read to its end. -/
theorem follows_readTokens (s : Scanner) :
    Follows (Scanned s) (readTokens s) (Lexeme.tokensAt s.options s.head) := by
  have htokens := Lexeme.tokensAt_of_readTokens s.options s.head
  simp only [readTokens, reading]
  rcases hline : Lexeme.readTokens s.options s.head with ⟨these, h⟩ | ⟨cause | breach, h⟩ <;>
    rw [hline] at htokens
  · rw [htokens]
    exact ⟨these, _, rfl, rfl, rfl⟩
  · dsimp only at htokens
    rw [htokens]
    exact follows_fail _ _ _
  · exact htokens.elim

/-- **All tokens of a program** are those of its logical lines, and where
one of them fails, so does the scan. -/
theorem follows_scanAll {lines : List Bytes} (hahead : s.Ahead lines) :
    Follows (fun tokens _ expected => tokens = expected) (scanAll s)
      (Stream.tokensOf s.options s.head.inComment lines) := by
  induction lines generalizing s with
  | nil =>
    obtain ⟨s', hline⟩ := hahead.getLine_nil
    rw [scanAll_eq, bind_of_ok hline]
    exact ⟨_, s', rfl, rfl⟩
  | cons line lines ih =>
    obtain ⟨stack, hline, hbelow⟩ := hahead.getLine_cons
    rw [scanAll_eq, bind_of_ok hline, if_pos rfl, Stream.tokensOf_cons]
    refine (follows_readTokens _).bind ?_
    rintro these _ ⟨_, h⟩ - ⟨rfl, rfl⟩
    -- the next line begins where this one left the head: in a comment or not
    have hrest := ih (s := { s with stack, head := h, saved := none }) (hbelow h)
    cases hmore : Stream.tokensOf s.options h.inComment lines with
    | error cause =>
      rw [hmore] at hrest
      exact hrest.bind_error
    | ok more =>
      rw [hmore] at hrest
      obtain ⟨_, s', hok, rfl⟩ := hrest
      exact ⟨_, s', bind_of_ok hok, rfl⟩

end Scan

end BasicLexer
