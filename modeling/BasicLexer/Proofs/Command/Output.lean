import Mathlib.Data.List.Forall2
import BasicLexer.Proofs.Command.Outcome
import BasicLexer.Proofs.Reading.Shown

/-!
# Command — what the output tells

The output of a run without the names of files is its listing, a line a
token, or nothing if the run fails. A listing falls into its lines again,
since no token is shown with a newline, and every line tells its token. So the
outputs of two runs are the same exactly if both fail, or both list tokens
that are the same but for what a listing does not show
(`Command.output_eq_iff`).
-/

namespace BasicLexer

open Scan

namespace Listing

variable {t u : Token} {tokens tokens' : List Token}

/-! ## Listings as text -/

theorem toList_render_cons (t : Token) (tokens : List Token) :
    (render (t :: tokens)).toList = t.display.toList ++ '\n' :: (render tokens).toList := by
  simp only [render, String.toList_join, List.map_cons, List.flatMap_cons, String.toList_append,
    List.append_assoc]
  rfl

theorem render_cons_ne_empty (t : Token) (tokens : List Token) : render (t :: tokens) ≠ "" := by
  intro hempty
  have hlist := toList_render_cons t tokens
  rw [hempty] at hlist
  exact List.append_ne_nil_of_right_ne_nil _ (List.cons_ne_nil _ _) hlist.symm

/-- **A listing tells its tokens**, if each is shown on one line. -/
theorem render_eq_iff (htokens : ∀ t ∈ tokens, t.OneLine) (htokens' : ∀ t ∈ tokens', t.OneLine) :
    render tokens = render tokens' ↔ List.Forall₂ Token.Akin tokens tokens' := by
  constructor
  · intro h
    induction tokens generalizing tokens' with
    | nil =>
      cases tokens' with
      | nil => exact .nil
      | cons u tokens' => exact absurd h.symm (render_cons_ne_empty u tokens')
    | cons t tokens ih =>
      cases tokens' with
      | nil => exact absurd h (render_cons_ne_empty t tokens)
      | cons u tokens' =>
        obtain ⟨ht, htokens⟩ := List.forall_mem_cons.mp htokens
        obtain ⟨hu, htokens'⟩ := List.forall_mem_cons.mp htokens'
        have hlist := congrArg String.toList h
        rw [toList_render_cons, toList_render_cons] at hlist
        obtain ⟨hfirst, hrest⟩ := append_separator_inj ht hu hlist
        exact .cons (Token.display_eq_iff.mp (String.toList_inj.mp hfirst))
          (ih htokens htokens' (String.toList_inj.mp hrest))
  · intro h
    clear htokens htokens'
    induction h with
    | nil => rfl
    | cons hfirst _ ih =>
      rw [← String.toList_inj, toList_render_cons, toList_render_cons, ih,
        Token.display_eq_iff.mpr hfirst]

/-- A loop that ends in tokens ends in at least that of the end. -/
theorem Loop.ne_nil {s s' : Scanner} {lines : Nat}
    {result : EStateM.Result (Failure Diagnostic) Scanner (List Token)}
    (hloop : Loop tokens s lines result) (hresult : result = .ok tokens' s') : tokens' ≠ [] := by
  induction hloop with
  | unreadable | rejected => cases hresult
  | exhausted =>
    cases hresult
    exact mt List.reverse_eq_nil_iff.mp (List.cons_ne_nil _ _)
  | line _ _ _ ih => exact ih hresult

end Listing

namespace Command

open Listing

variable {explain explain' : String → String} {disk disk' : Disk} {files files' : List Bytes}
variable {arguments arguments' : Arguments}

/-! ## The tokens of a run -/

/-- The tokens that a run lists, if it does not fail. -/
def tokens? (disk : Disk) (arguments : Arguments) : Option (List Token) :=
  match scanner disk arguments with
  | .error _ => none
  | .ok s =>
    match Listing.make s with
    | .ok tokens _ => some tokens
    | .error .. => none

/-- Without the names of files the output is the listing, or nothing. -/
theorem output_run (hlist : arguments.listFiles = false) :
    (run explain disk arguments).output = ((tokens? disk arguments).map render).getD "" := by
  rw [run, tokens?]
  cases scanner disk arguments with
  | error cause => rfl
  | ok s =>
    dsimp only
    cases Listing.make s with
    | error failure s' => rfl
    | ok tokens s' =>
      dsimp only
      rw [hlist]
      exact String.append_empty

/-- There are tokens in a listing, and each is shown on one line. -/
theorem shown_of_tokens? (hdisk : disk.Holds files) {tokens : List Token}
    (htokens : tokens? disk arguments = some tokens) :
    tokens ≠ [] ∧ ∀ t ∈ tokens, t.OneLine := by
  rw [tokens?] at htokens
  rcases scanner_cases disk arguments with
    ⟨cause, -, hscanner⟩ | ⟨found, fault, -, -, hscanner⟩ | ⟨found, program, hopen, hscanner⟩
  · rw [hscanner] at htokens
    cases htokens
  · rw [hscanner] at htokens
    cases htokens
  · rw [hscanner] at htokens
    obtain ⟨hbegin, lines, result, hloop, hrun⟩ := exists_loop_of_openSource found hdisk hopen
    have hmake : make (.startOn disk found program) =
        closing list (Scanner.startOn disk found program).rewound := bind_of_ok hbegin
    dsimp only at htokens
    rw [hmake, closing, hrun] at htokens
    rcases result with ⟨all, s'⟩ | ⟨failure, s'⟩
    · cases htokens
      exact ⟨hloop.ne_nil rfl, hloop.oneLine (List.forall_mem_nil _) rfl⟩
    · cases failure <;> cases htokens

/-- The outputs of two runs are the same exactly if their tokens are, but for
what a listing does not show. -/
theorem output_run_eq_iff (hdisk : disk.Holds files) (hdisk' : disk'.Holds files')
    (hlist : arguments.listFiles = false) (hlist' : arguments'.listFiles = false) :
    (run explain disk arguments).output = (run explain' disk' arguments').output ↔
      Option.Rel (List.Forall₂ Token.Akin) (tokens? disk arguments) (tokens? disk' arguments') := by
  rw [output_run hlist, output_run hlist']
  cases htokens : tokens? disk arguments with
  | none =>
    cases htokens' : tokens? disk' arguments' with
    | none => exact iff_of_true rfl .none
    | some tokens' =>
      obtain ⟨hne, -⟩ := shown_of_tokens? hdisk' htokens'
      obtain ⟨t, rest, rfl⟩ := List.exists_cons_of_ne_nil hne
      exact iff_of_false (render_cons_ne_empty t rest).symm nofun
  | some tokens =>
    obtain ⟨hne, hshown⟩ := shown_of_tokens? hdisk htokens
    cases htokens' : tokens? disk' arguments' with
    | none =>
      obtain ⟨t, rest, rfl⟩ := List.exists_cons_of_ne_nil hne
      exact iff_of_false (render_cons_ne_empty t rest) nofun
    | some tokens' =>
      obtain ⟨-, hshown'⟩ := shown_of_tokens? hdisk' htokens'
      refine (render_eq_iff hshown hshown').trans ⟨.some, fun hrel => ?_⟩
      cases hrel
      assumption

/-- **The output determines the tokens.** Two tokens are shown alike exactly
if they are of one kind, of one text if that is shown, and of one value if
that is. And take any two trees of files, some of which may refuse to be
opened, and arguments for either that ask for a run without the names of
files: the outputs are the same exactly if both runs fail, or if both list
tokens that are, one by one, shown alike. What is said of a text that is no
configuration has no part in it. -/
theorem output_eq_iff :
    (∀ t u : Token, t.display = u.display ↔ t.Akin u) ∧
    ∀ (explain explain' : String → String) (tree tree' : FileTree)
      (faults faults' : String → Option Fault)
      (strings strings' : List String) (arguments arguments' : Arguments),
      invocation strings = .run arguments → arguments.listFiles = false →
      invocation strings' = .run arguments' → arguments'.listFiles = false →
      let disk := tree.disk.refusing faults
      let disk' := tree'.disk.refusing faults'
      (invoke explain disk strings).output = (invoke explain' disk' strings').output ↔
        Option.Rel (List.Forall₂ Token.Akin)
          (tokens? disk arguments) (tokens? disk' arguments') := by
  refine ⟨fun t u => Token.display_eq_iff, ?_⟩
  intro explain explain' tree tree' faults faults' strings strings' arguments arguments' hrun hlist
    hrun' hlist' disk disk'
  rw [invoke, invoke, hrun, hrun']
  exact output_run_eq_iff (tree.holds_disk.refusing faults) (tree'.holds_disk.refusing faults')
    hlist hlist'

/-- The output does not tell blanks, comments, the case of keywords and how
numbers are written: two programs that list the same tokens. -/
theorem output_of_respelled_program :
    let tree := FileTree.ofList [("p.bas", some "PRINT \"a\\tb\";0x1F\n".toUTF8.toList)]
    let tree' := FileTree.ofList [("q.bas", some "print\t\"a\\tb\" ; 31 // x\n".toUTF8.toList)]
    let disk := tree.disk.refusing fun _ => none
    let disk' := tree'.disk.refusing fun _ => none
    (invoke id disk ["p.bas"]).output =
        "PRINT\n<STRING>(\"a\\tb\")\n';'\n<NUMBER>(31)\n<EOL>\n<EOF>\n" ∧
      Option.Rel (List.Forall₂ Token.Akin)
        (tokens? disk { file := "p.bas" }) (tokens? disk' { file := "q.bas" }) := by
  intro tree tree' disk disk'
  have hlisting : (invoke id disk ["p.bas"]).output =
      "PRINT\n<STRING>(\"a\\tb\")\n';'\n<NUMBER>(31)\n<EOL>\n<EOF>\n" := by decide +kernel
  have hsame : (invoke id disk' ["q.bas"]).output =
      "PRINT\n<STRING>(\"a\\tb\")\n';'\n<NUMBER>(31)\n<EOL>\n<EOF>\n" := by decide +kernel
  exact ⟨hlisting, (output_eq_iff.2 id id tree tree' _ _ ["p.bas"] ["q.bas"] _ _ rfl rfl rfl rfl).mp
    (hlisting.trans hsame.symm)⟩

end Command

end BasicLexer
