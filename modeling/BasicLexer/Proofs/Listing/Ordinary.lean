import BasicLexer.Proofs.Listing.Statements
import BasicLexer.Proofs.Scanner.AllLines
import BasicLexer.Proofs.Scanner.LineByLine

/-!
# Listings — programs of ordinary lines

A listing parts from a scan of all tokens where a line begins with
`INCLUDE` or `REM`, and nowhere else. Where a scan comes to no such line the
two passes are the same pass: they give the same tokens or fail of the
same diagnostic, and leave the same reports and the same scanner
(`Listing.make_eq_runPass_scanAll`). One goes by lines and an allowance of
them, the other by tokens and two flags; both come down to the recursion
`Scan.scanAll_eq`.
-/

namespace BasicLexer

open Scan

namespace Scan

/-- The state in which a scan of all tokens has just fetched a line: the
next one, or one that comes after lines read to their ends. -/
inductive Reaches : Scanner → Scanner → Prop
  | next {s s₁ : Scanner} (hline : getLine s = .ok true s₁) : Reaches s s₁
  | later {s s₁ s₂ s₃ : Scanner} {tokens : List Token} (hline : getLine s = .ok true s₁)
      (hread : readTokens s₁ = .ok tokens s₂) (hrest : Reaches s₂ s₃) : Reaches s s₃

/-- The lines that are reached are among those ahead, each from its start. -/
theorem Reaches.of_ahead {s s₁ : Scanner} {lines : List Bytes} (hreaches : Reaches s s₁)
    (hahead : s.Ahead lines) :
    ∃ line ∈ lines, ∃ inComment, s₁.head = { ahead := line, inComment } ∧ s₁.saved = none ∧
      s₁.options = s.options := by
  induction hreaches generalizing lines with
  | next hline =>
    obtain ⟨line, rest, stack, rfl, rfl, -⟩ := hahead.of_getLine hline
    exact ⟨line, List.mem_cons_self, _, rfl, rfl, rfl⟩
  | later hline hread _ ih =>
    obtain ⟨_, rest, stack, rfl, rfl, hrest⟩ := hahead.of_getLine hline
    obtain ⟨h, -, rfl⟩ := readTokens_eq_ok hread
    obtain ⟨line, hmem, found⟩ := ih (hrest h)
    exact ⟨line, List.mem_cons_of_mem _ hmem, found⟩

/-- A pass over a text begins with all its lines ahead. -/
theorem ahead_of_rewind {options : Options} {resolver : Resolver} {program : Bytes}
    {begun : Scanner}
    (hrewind : rewind (Scanner.start options resolver (.ofBytes program)) = .ok () begun) :
    begun.options = options ∧ begun.Ahead (Bytes.logicalLines options.maxLine program) := by
  cases hrewind
  refine ⟨rfl, ⟨⟨fun _ => rfl, fun _ => rfl⟩, List.forall_mem_nil _⟩, ?_⟩
  simp [Scanner.start, Scanner.closeAll, Stack.closeAll, Source.rewind, Stack.lines, Stack.linesOf,
    Source.lines, Source.ofBytes]

end Scan

namespace Listing

variable {s s' : Scanner}

/-- A line is ordinary if its first token neither asks for a file nor
begins a remark. -/
def Ordinary (s : Scanner) : Prop :=
  ∀ first s', getToken s = .ok first s' →
    first.isKeyword .INCLUDE = false ∧ first.isKeyword .REM = false

/-- Its first token is off the line. -/
theorem ordinary_of_token (hsaved : s.saved = none)
    (hfirst : ∀ found ∈ (Lexeme.token s.options s.head).toOption,
      found.1.isKeyword .INCLUDE = false ∧ found.1.isKeyword .REM = false) : Ordinary s := by
  intro first s' hget
  have hfollows := follows_getToken hsaved
  cases htoken : Lexeme.token s.options s.head with
  | error cause =>
    rw [htoken] at hfollows
    obtain ⟨_, _, herror⟩ := hfollows
    rw [herror] at hget
    cases hget
  | ok found =>
    rw [htoken] at hfollows hfirst
    obtain ⟨_, _, hok, rfl, rfl⟩ := hfollows
    rw [hok] at hget
    cases hget
    exact hfirst found rfl

/-! ## One line -/

/-- The tokens of a line that goes on behind the one given. -/
theorem lineFrom_eq_readTokens (tokens : List Token) {t : Token} (hend : t.kind ≠ .endOfLine)
    (hsaved : s.saved = none) :
    lineFrom tokens t s = (do return (t :: tokens).reverse ++ (← readTokens)) s := by
  induction hsupply : s.supply using Nat.strongRecOn generalizing s tokens t with
  | ind supply ih =>
    subst hsupply
    have hmore := lineFrom_of_more (s := s) tokens hend
    rw [bind_of_eq (readTokens_eq hsaved), bind_assoc]
    cases hget : getToken s with
    | error failure s' => exact hmore.trans ((bind_of_error hget).trans (bind_of_error hget).symm)
    | ok next s' =>
      rw [hmore.trans (bind_of_ok hget), bind_of_ok hget]
      by_cases hlast : next.kind = .endOfLine
      · rw [lineFrom_of_end _ hlast, if_pos hlast, pure_bind, List.reverse_cons]
        rfl
      · have hless := (supply_getToken hget).resolve_right fun h => hlast h.1
        rw [ih _ hless (t :: tokens) hlast (saved_getToken hget) rfl, if_neg hlast]
        simp only [bind_assoc, pure_bind, List.reverse_cons, List.append_assoc, List.cons_append,
          List.nil_append]

/-- **An ordinary line** leaves all its tokens in a listing. -/
theorem statement_eq_readTokens (hordinary : Ordinary s) (hsaved : s.saved = none) :
    statement s = readTokens s := by
  rw [statement, readTokens_eq hsaved]
  cases hget : getToken s with
  | error failure s' => rw [bind_of_error hget, bind_of_error hget]
  | ok first s' =>
    obtain ⟨hinclude, hrem⟩ := hordinary first s' hget
    rw [bind_of_ok hget, bind_of_ok hget, hinclude, hrem, if_neg Bool.false_ne_true,
      if_neg Bool.false_ne_true, line]
    by_cases hend : first.kind = .endOfLine
    · rw [lineFrom_of_end _ hend, if_pos hend]
      rfl
    · rw [lineFrom_eq_readTokens [] hend (saved_getToken hget), if_neg hend]
      rfl

/-! ## All lines -/

/-- With lines enough allowed, a listing of ordinary lines is a scan. -/
theorem listFrom_eq_scanAll (tokens : List Token) {fuel : Nat} (hfuel : s.stack.left < fuel)
    (hlines : ∀ s₁, Reaches s s₁ → Ordinary s₁) :
    listFrom tokens fuel s = (do return some (tokens.reverse ++ (← scanAll))) s := by
  induction fuel generalizing s tokens with
  | zero => omega
  | succ fuel ih =>
    rw [listFrom, bind_of_eq (scanAll_eq s), bind_assoc]
    cases hline : getLine s with
    | error failure s' => rw [bind_of_error hline, bind_of_error hline]
    | ok found s₁ =>
      rw [bind_of_ok hline, bind_of_ok hline]
      cases found with
      | false =>
        simp only [Bool.false_eq_true, if_false, pure_bind, List.reverse_cons]
        rfl
      | true =>
        have hstatement :=
          statement_eq_readTokens (hlines s₁ (.next hline)) (saved_of_getLine hline)
        simp only [if_true, bind_assoc, pure_bind]
        rw [bind_of_eq hstatement]
        cases hread : readTokens s₁ with
        | error failure s₂ => rw [bind_of_error hread, bind_of_error hread]
        | ok these s₂ =>
          obtain ⟨h, -, rfl⟩ := readTokens_eq_ok hread
          -- a line is off the files open, and its tokens are read without another
          have hleft := left_getLine hline
          rw [bind_of_ok hread, bind_of_ok hread]
          rw [ih (these.reverseAux tokens) (by simp only; omega)
            fun s₃ hrest => hlines s₃ (.later hline hread hrest)]
          simp only [List.reverseAux_eq, List.reverse_append, List.reverse_reverse,
            List.append_assoc]

theorem list_eq_scanAll (hlines : ∀ s₁, Reaches s s₁ → Ordinary s₁) : list s = scanAll s := by
  have hallowance : s.stack.left < allowance s := by
    rw [allowance]
    omega
  rw [list, listFrom_eq_scanAll [] hallowance hlines]
  simp only [Bind.bind, EStateM.bind]
  cases scanAll s <;> rfl

/-- **Where no line asks for a file or begins a remark, the listing of a
program is the scan of it.** Let every line that the scan comes to be
ordinary. Then the pass that makes the listing and the pass that takes all
tokens end alike: with the same tokens, kind, text, value and offset, or of
the same diagnostic, position and all; and they leave the scanner the same,
with the same text sent out. -/
theorem make_eq_runPass_scanAll (s : Scanner)
    (hlines : ∀ begun s₁, rewind s = .ok () begun → Reaches begun s₁ → Ordinary s₁) :
    make s = runPass scanAll s := by
  rw [make, runPass, runPass]
  cases hrewind : rewind s with
  | error failure s' => rw [bind_of_error hrewind, bind_of_error hrewind]
  | ok _ begun =>
    rw [bind_of_ok hrewind, bind_of_ok hrewind, closing, closing,
      list_eq_scanAll fun s₁ => hlines begun s₁ hrewind]

/-- Three lines, `/*x`, `*/END IF` and a quote that is not closed. -/
def ordinaryLines : List Bytes :=
  [[47, 42, 120, 10], [42, 47, 69, 78, 68, 32, 73, 70, 10], [34, 10]]

theorem make_eq_runPass_scanAll_ordinaryLines :
    let s := Scanner.start {} (.ofTexts []) (.ofBytes ordinaryLines.flatten)
    (∀ begun s₁, rewind s = .ok () begun → Reaches begun s₁ → Ordinary s₁) ∧
      make s = runPass scanAll s := by
  intro s
  have hordinary : ∀ begun s₁, rewind s = .ok () begun → Reaches begun s₁ → Ordinary s₁ := by
    intro begun s₁ hrewind hreaches
    have hlines : Bytes.logicalLines 128 ordinaryLines.flatten = ordinaryLines := by cbv
    obtain ⟨hoptions, hahead⟩ := ahead_of_rewind hrewind
    obtain ⟨line, hline, inComment, hhead, hsaved, hsame⟩ := hreaches.of_ahead hahead
    have hfirst : ∀ line ∈ ordinaryLines, ∀ inComment,
        ∀ found ∈ (Lexeme.token {} { ahead := line, inComment }).toOption,
          found.1.isKeyword .INCLUDE = false ∧ found.1.isKeyword .REM = false := by decide +kernel
    rw [hlines] at hline
    refine ordinary_of_token hsaved ?_
    rw [hhead, hsame, hoptions]
    exact hfirst line hline inComment
  exact ⟨hordinary, make_eq_runPass_scanAll s hordinary⟩

end Listing

end BasicLexer
