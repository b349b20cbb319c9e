import BasicLexer.Proofs.Input.LogicalLines
import BasicLexer.Proofs.Reading.Orderly
import BasicLexer.Scanner.Tokens

/-!
# Listings — what a program expands to

A listing by recursion on the include files, without a scanner: the
tokens of a text are those of its logical lines in order, and where a line
asks for a file those of the file stand in its place. What passes from line
to line is small: the names requested so far, and whether a block comment
is open. A name is requested once, so the recursion ends for want of
files that were not requested.
-/

namespace BasicLexer

namespace Lexeme

/-! ## The tokens of a line -/

/-- The token at a head and the head after it. Reading a token breaks no
contract, so what it fails of is a cause. -/
def token (options : Options) (h : Head) : Except Cause (Token × Head) :=
  match hrun : read options h with
  | .ok t h' => .ok (t, h')
  | .error (.reported cause) _ => .error cause
  | .error (.breach _) _ => absurd hrun (orderly_read options).not_breach

/-- A token is what reading gives, or the cause that reading fails of. -/
theorem token_cases (options : Options) (h : Head) :
    (∃ t h', read options h = .ok t h' ∧ token options h = .ok (t, h')) ∨
    (∃ cause h', read options h = .error (.reported cause) h' ∧
      token options h = .error cause) := by
  unfold token
  split
  · rename_i t h' hread
    exact .inl ⟨t, h', hread, rfl⟩
  · rename_i cause h' hread
    exact .inr ⟨cause, h', hread, rfl⟩
  · rename_i breach h' hread
    exact absurd hread (orderly_read options).not_breach

theorem token_eq_ok {options : Options} {h h' : Head} {t : Token} :
    token options h = .ok (t, h') ↔ read options h = .ok t h' := by
  rcases token_cases options h with ⟨t₁, h₁, hread, htoken⟩ | ⟨cause, h₁, hread, htoken⟩
  · rw [hread, htoken]
    constructor <;> (rintro ⟨⟩; rfl)
  · rw [hread, htoken]
    constructor <;> rintro ⟨⟩

/-- The token at a head if it is of the kind required, and the head after
it. -/
def tokenOf (options : Options) (required : Kind) (h : Head) : Except Cause (Token × Head) := do
  let found ← token options h
  if found.1.kind = required then return found
  else throw (.expectingToken required found.1.kind)

/-- The tokens of a line from the one given on, through the end of the
line. -/
def tokensFrom (options : Options) (t : Token) (h : Head) : Except Cause (List Token × Head) :=
  if _hend : t.kind = .endOfLine then .ok ([t], h)
  else
    match _hnext : token options h with
    | .error cause => .error cause
    | .ok (next, h') =>
      (tokensFrom options next h').map fun rest => (t :: rest.1, rest.2)
  termination_by h.ahead.length + (if t.kind = .endOfLine then 0 else 1)
  decreasing_by
    rcases length_ahead_read (token_eq_ok.mp _hnext) with hlt | ⟨hkind, hle⟩
    · rw [if_neg _hend]
      split <;> omega
    -- the end of the line may be found on an empty rest; it is the last token
    · rw [if_neg _hend, if_pos hkind]
      omega

end Lexeme

namespace Listing

/-- What a line is to a listing: tokens, or a request for the tokens of a
file. -/
inductive Statement where
  | tokens (tokens : List Token)
  | request (name : String)
  deriving DecidableEq, Repr

/-- The name of the file that the rest of a line asks for: a string, and
nothing after it. -/
def requestFrom (options : Options) (h : Head) : Except Cause (String × Head) := do
  let (name, h) ← Lexeme.tokenOf options .string h
  let (_, h) ← Lexeme.tokenOf options .endOfLine h
  return (name.text, h)

/-- What a line says, and whether it leaves a block comment open. A line
that begins with `INCLUDE` is a request or an error; one that begins with
`REM` is not read on. -/
def Statement.ofLine (options : Options) (inComment : Bool) (line : Bytes) :
    Except Cause (Statement × Bool) := do
  let (first, h) ← Lexeme.token options { ahead := line, inComment }
  if first.isKeyword .INCLUDE then
    let (name, h) ← requestFrom options h
    return (.request name, h.inComment)
  else if first.isKeyword .REM then
    return (.tokens [first, { kind := .endOfLine, offset := line.length }], h.inComment)
  else
    let (these, h) ← Lexeme.tokensFrom options first h
    return (.tokens these, h.inComment)

/-! ## The files that were not requested -/

/-- The files of a table under names that were not requested. -/
def unrequested (files : List (String × Bytes)) (requested : List String) :
    List (String × Bytes) :=
  files.filter fun f => f.1 ∉ requested

theorem unrequested_append (files : List (String × Bytes)) (names requested : List String) :
    unrequested files (names ++ requested) =
      (unrequested files requested).filter fun f => f.1 ∉ names := by
  simp [unrequested, List.filter_filter]

theorem length_unrequested_append_le (files : List (String × Bytes))
    (names requested : List String) :
    (unrequested files (names ++ requested)).length ≤ (unrequested files requested).length := by
  rw [unrequested_append]
  exact List.length_filter_le _ _

theorem mem_unrequested_of_lookup {files : List (String × Bytes)} {requested : List String}
    {name : String} {text : Bytes} (hfile : files.lookup name = some text)
    (hnew : name ∉ requested) : (name, text) ∈ unrequested files requested := by
  obtain ⟨before, after, rfl, -⟩ := List.lookup_eq_some_iff.mp hfile
  simp [unrequested, hnew]

/-- Requesting a file of the table leaves fewer. -/
theorem length_unrequested_cons_lt {files : List (String × Bytes)} {requested : List String}
    {name : String} {text : Bytes} (hfile : files.lookup name = some text)
    (hnew : name ∉ requested) :
    (unrequested files (name :: requested)).length < (unrequested files requested).length := by
  rw [← List.singleton_append, unrequested_append, List.length_filter_lt_length_iff_exists]
  exact ⟨(name, text), mem_unrequested_of_lookup hfile hnew, by simp⟩

/-! ## The expansion -/

/-- What lines contribute to a listing: their tokens, the names they were
the first to request, the last one first, and whether they leave a block
comment open. -/
structure Share where
  tokens : List Token := []
  names : List String := []
  inComment : Bool
  deriving DecidableEq, Repr

/-- One share and then another, made after it. -/
def Share.append (share next : Share) : Share where
  tokens := share.tokens ++ next.tokens
  names := next.names ++ share.names
  inComment := next.inComment

/-- What lines contribute after the names given were requested. A line
that requests a new file of the table has the lines of the file in its
place; one that requests an old name contributes nothing, and a new name
that is not in the table is an error. -/
def expand (options : Options) (files : List (String × Bytes)) (requested : List String)
    (inComment : Bool) : List Bytes → Except Cause Share
  | [] => .ok { inComment }
  | line :: rest =>
    match Statement.ofLine options inComment line with
    | .error cause => .error cause
    | .ok (.tokens tokens, isOpen) =>
      (expand options files requested isOpen rest).map fun next =>
        { next with tokens := tokens ++ next.tokens }
    | .ok (.request name, isOpen) =>
      if _hold : name ∈ requested then expand options files requested isOpen rest
      else
        match _hfile : files.lookup name with
        | none => .error (.includeNotFound name)
        | some text =>
          match expand options files (name :: requested) isOpen
              (Bytes.logicalLines options.maxLine text) with
          | .error cause => .error cause
          | .ok inner =>
            (expand options files (inner.names ++ name :: requested) inner.inComment rest).map
              fun next => Share.append { inner with names := inner.names ++ [name] } next
  termination_by lines => ((unrequested files requested).length, lines.length)
  decreasing_by
    · exact Prod.Lex.right _ (Nat.lt_succ_self _)
    · exact Prod.Lex.right _ (Nat.lt_succ_self _)
    · exact Prod.Lex.left _ _ (length_unrequested_cons_lt _hfile _hold)
    -- after the file its own name is requested, and so are those it requested
    · refine Prod.Lex.left _ _ ?_
      have hle := length_unrequested_append_le files inner.names (name :: requested)
      have hlt := length_unrequested_cons_lt _hfile _hold
      omega

section Equations

variable {options : Options} {files : List (String × Bytes)} {requested : List String}
variable {inComment isOpen : Bool} {line : Bytes} {name : String}

/-- Tokens come before those of the lines that follow. -/
theorem expand_tokens (rest : List Bytes) {tokens : List Token}
    (hline : Statement.ofLine options inComment line = .ok (.tokens tokens, isOpen)) :
    expand options files requested inComment (line :: rest) =
      (expand options files requested isOpen rest).map fun next =>
        { next with tokens := tokens ++ next.tokens } := by
  rw [expand, hline]

/-- A new name that is not in the table is an error. -/
theorem expand_missing (rest : List Bytes)
    (hline : Statement.ofLine options inComment line = .ok (.request name, isOpen))
    (hnew : name ∉ requested) (hfile : files.lookup name = none) :
    expand options files requested inComment (line :: rest) =
      .error (.includeNotFound name) := by
  rw [expand, hline]
  dsimp only
  rw [dif_neg hnew]
  split
  · rfl
  · rename_i text hfound
    rw [hfile] at hfound
    cases hfound

/-- A new name of the table stands for the lines of its file. -/
theorem expand_file (rest : List Bytes) {text : Bytes}
    (hline : Statement.ofLine options inComment line = .ok (.request name, isOpen))
    (hnew : name ∉ requested) (hfile : files.lookup name = some text) :
    expand options files requested inComment (line :: rest) =
      match expand options files (name :: requested) isOpen
          (Bytes.logicalLines options.maxLine text) with
      | .error cause => .error cause
      | .ok inner =>
        (expand options files (inner.names ++ name :: requested) inner.inComment rest).map
          fun next => Share.append { inner with names := inner.names ++ [name] } next := by
  rw [expand, hline]
  dsimp only
  rw [dif_neg hnew]
  split
  · rename_i hfound
    rw [hfile] at hfound
    cases hfound
  · rename_i found hfound
    rw [hfile] at hfound
    cases hfound
    rfl

end Equations

/-- The token that ends a listing. -/
def endToken : Token := { kind := .endOfFile, offset := 0 }

/-- **What a program expands to** with a table of include files: what its
logical lines contribute, nothing having been requested and no comment
being open, and the token of the end of the file. -/
def expansion (options : Options) (files : List (String × Bytes)) (program : Bytes) :
    Except Cause (List Token) :=
  (expand options files [] false (Bytes.logicalLines options.maxLine program)).map
    fun share => share.tokens ++ [endToken]

end Listing

end BasicLexer
