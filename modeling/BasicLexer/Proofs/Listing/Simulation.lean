import BasicLexer.Proofs.Input.Frames
import BasicLexer.Proofs.Listing.Statements
import BasicLexer.Proofs.Scanner.Requests
import BasicLexer.Proofs.Total

/-!
# Listings — the loop over open files makes the expansion

A listing is made by one loop over a stack of open files; the expansion is
a recursion on the files. `expandAll` stands between them: it expands the
texts left on a stack, from the innermost out. A turn of the loop takes
the next line off these texts (`expandAll_of_some`), and a file that is
opened goes on top of them.

The loop is given an allowance of lines. Each line is paid for by a byte
of a file that is open or of one that was not requested, and no byte pays
twice.
-/

namespace BasicLexer

namespace Listing

open Scan

variable {options : Options} {files : List (String × Bytes)} {requested : List String}
variable {inComment : Bool} {texts : List (List Bytes)}

/-! ## Expanding the texts of a stack -/

/-- The tokens that the texts left on a stack come to, through the end of
the file, after the names given were requested. -/
def expandAll (options : Options) (files : List (String × Bytes)) (requested : List String)
    (inComment : Bool) : List (List Bytes) → Except Cause (List Token)
  | [] => .ok [endToken]
  | lines :: below =>
    match expand options files requested inComment lines with
    | .error cause => .error cause
    | .ok share =>
      (expandAll options files (share.names ++ requested) share.inComment below).map
        (share.tokens ++ ·)

/-- What texts come to after a statement was taken off them, which left a
block comment open or not. -/
def resume (options : Options) (files : List (String × Bytes)) (requested : List String)
    (texts : List (List Bytes)) : Statement × Bool → Except Cause (List Token)
  | (.tokens tokens, isOpen) =>
    (expandAll options files requested isOpen texts).map (tokens ++ ·)
  | (.request name, isOpen) =>
    if name ∈ requested then expandAll options files requested isOpen texts
    else
      match files.lookup name with
      | none => .error (.includeNotFound name)
      | some text =>
        expandAll options files (name :: requested) isOpen
          (Bytes.logicalLines options.maxLine text :: texts)

theorem expandAll_nil_cons :
    expandAll options files requested inComment ([] :: texts) =
      expandAll options files requested inComment texts := by
  rw [expandAll, expand]
  dsimp only [List.nil_append]
  cases expandAll options files requested inComment texts <;> rfl

theorem expandAll_of_none (hnext : Stack.nextLine texts = none) :
    expandAll options files requested inComment texts = .ok [endToken] := by
  induction texts with
  | nil => rfl
  | cons lines below ih =>
    cases lines with
    | nil => rw [expandAll_nil_cons, ih hnext]
    | cons line rest => cases hnext

/-- Tokens put before what texts come to, one share after another. -/
theorem map_append_map (value : Except Cause (List Token)) (first second : List Token) :
    (value.map (second ++ ·)).map (first ++ ·) = value.map ((first ++ second) ++ ·) := by
  cases value with
  | error cause => rfl
  | ok tokens => simp only [Except.map, List.append_assoc]

theorem expandAll_cons_tokens {line : Bytes} {rest : List Bytes} {tokens : List Token}
    {isOpen : Bool}
    (hline : Statement.ofLine options inComment line = .ok (.tokens tokens, isOpen)) :
    expandAll options files requested inComment ((line :: rest) :: texts) =
      (expandAll options files requested isOpen (rest :: texts)).map (tokens ++ ·) := by
  rw [expandAll, expand, hline, expandAll]
  dsimp only
  cases expand options files requested isOpen rest with
  | error cause => rfl
  | ok share => exact (map_append_map _ _ _).symm

theorem expandAll_cons_request {line : Bytes} {rest : List Bytes} {name : String} {isOpen : Bool}
    (hline : Statement.ofLine options inComment line = .ok (.request name, isOpen)) :
    expandAll options files requested inComment ((line :: rest) :: texts) =
      resume options files requested (rest :: texts) (.request name, isOpen) := by
  rw [expandAll, resume]
  by_cases hold : name ∈ requested
  · rw [expand, hline, if_pos hold, expandAll]
    dsimp only
    rw [dif_pos hold]
  rw [if_neg hold]
  cases hfile : files.lookup name with
  | none => rw [expand_missing rest hline hold hfile]
  | some text =>
    rw [expand_file rest hline hold hfile]
    dsimp only
    rw [expandAll]
    cases expand options files (name :: requested) isOpen
        (Bytes.logicalLines options.maxLine text) with
    | error cause => rfl
    | ok inner =>
      dsimp only
      rw [expandAll]
      cases expand options files (inner.names ++ name :: requested) inner.inComment rest with
      | error cause => rfl
      | ok next =>
        -- the names are collected from the last to the first, the file's own before those in it
        have hnames : next.names ++ (inner.names ++ [name]) ++ requested =
            next.names ++ (inner.names ++ name :: requested) := by
          simp only [List.append_assoc, List.singleton_append]
        simp only [Except.map, Share.append, hnames]
        exact (map_append_map _ _ _).symm

/-- **A line comes off the texts**: what they come to is what they come
to after the statement on their next line. -/
theorem expandAll_of_some {line : Bytes} {below : List (List Bytes)}
    (hnext : Stack.nextLine texts = some (line, below)) :
    expandAll options files requested inComment texts =
      (Statement.ofLine options inComment line >>= resume options files requested below) := by
  induction texts with
  | nil => cases hnext
  | cons lines others ih =>
    cases lines with
    | nil => rw [expandAll_nil_cons, ih hnext]
    | cons first rest =>
      obtain ⟨rfl, rfl⟩ : first = line ∧ rest :: others = below := by
        simpa [Stack.nextLine] using hnext
      cases hline : Statement.ofLine options inComment first with
      | error cause => rw [expandAll, expand, hline]; rfl
      | ok found =>
        obtain ⟨⟨tokens⟩ | ⟨name⟩, isOpen⟩ := found
        · exact expandAll_cons_tokens hline
        · exact expandAll_cons_request hline

/-! ## What a scanner and the expansion agree on -/

/-- The bytes of the files of a table that were not requested. -/
def unread (files : List (String × Bytes)) (requested : List String) : Nat :=
  total (fun f => f.2.length) (unrequested files requested)

/-- Opening a file takes its bytes off those that are unread. -/
theorem unread_cons_le {name : String} {text : Bytes} (hfile : files.lookup name = some text)
    (hnew : name ∉ requested) :
    text.length + unread files (name :: requested) ≤ unread files requested := by
  have hfewer (f : String × Bytes) (hf : decide (f.1 ∉ name :: requested) = true) :
      decide (f.1 ∉ requested) = true := by
    simp only [List.mem_cons, not_or, decide_eq_true_eq] at hf ⊢
    exact hf.2
  exact add_total_filter_le (fun f => f.2.length) hfewer (mem_unrequested_of_lookup hfile hnew)
    (by simp)

/-- What holds between two lines of a listing: the table is the
scanner's, no open file fails, and the names requested are those the
scanner counts as included. -/
structure Represents (files : List (String × Bytes)) (requested : List String) (s : Scanner) :
    Prop where
  resolver : s.resolver = .ofTexts files
  reliable : s.stack.Reliable
  included : ∀ name, s.included.contains name = true ↔ name ∈ requested

/-- What the texts left on a scanner's stack come to. -/
def outstanding (files : List (String × Bytes)) (requested : List String) (s : Scanner) :
    Except Cause (List Token) :=
  expandAll s.options files requested s.head.inComment (s.stack.lines s.options.maxLine)

/-- The bytes that can still pay for a line. -/
def budget (files : List (String × Bytes)) (requested : List String) (s : Scanner) : Nat :=
  s.stack.left + unread files requested

variable {s : Scanner}

theorem pushInclude_of_old {name : String} (hrep : Represents files requested s)
    (hold : name ∈ requested) : Scan.pushInclude name s = .ok .alreadySatisfied s :=
  Scan.pushInclude_of_contains ((hrep.included name).mpr hold)

/-- A new name counts as requested, whatever comes of it. -/
theorem included_insert (hrep : Represents files requested s) (name other : String) :
    (s.included.insert name).2.contains other = true ↔ other ∈ name :: requested := by
  rw [OrderedSet.contains_insert, hrep.included, List.mem_cons]

theorem not_contains_of_new {name : String} (hrep : Represents files requested s)
    (hnew : name ∉ requested) : s.included.contains name = false := by
  rw [← Bool.not_eq_true, hrep.included]
  exact hnew

/-- A new name that is not in the table is not found. -/
theorem pushInclude_of_missing {name : String} (hrep : Represents files requested s)
    (hnew : name ∉ requested) (hfile : files.lookup name = none) :
    ∃ s', Scan.pushInclude name s = .ok .notFound s' := by
  have hopen : s.resolver.open? name = none := by
    rw [hrep.resolver, Resolver.open?_ofTexts, hfile, Option.map_none]
  rw [Scan.pushInclude_of_not_contains (not_contains_of_new hrep hnew), hopen]
  exact ⟨_, rfl⟩

/-- The text of a file opened on top is the first of those left. -/
theorem lines_push (limit : Nat) (text : Bytes) (stack : Stack) (entry : Nat) :
    (stack.push (.ofBytes text) entry).lines limit =
      Bytes.logicalLines limit text :: stack.lines limit := by
  simp [Stack.push, Stack.lines, Stack.linesOf, Source.lines_ofBytes]

theorem left_push (text : Bytes) (stack : Stack) (entry : Nat) :
    (stack.push (.ofBytes text) entry).left = text.length + stack.left := by
  simp only [Stack.push, Stack.left, Stack.leftOf, total, Source.left, Source.ofBytes, Feed.size]
  omega

/-- A new name of the table has its file opened on top. -/
theorem pushInclude_of_file {name : String} {text : Bytes} (hrep : Represents files requested s)
    (hnew : name ∉ requested) (hfile : files.lookup name = some text) :
    ∃ s', Scan.pushInclude name s = .ok .opened s' ∧ Represents files (name :: requested) s' ∧
      budget files (name :: requested) s' ≤ budget files requested s ∧
      outstanding files (name :: requested) s' =
        expandAll s.options files (name :: requested) s.head.inComment
          (Bytes.logicalLines s.options.maxLine text :: s.stack.lines s.options.maxLine) := by
  have hopen : s.resolver.open? name = some (.ofBytes text) := by
    rw [hrep.resolver, Resolver.open?_ofTexts, hfile, Option.map_some]
  have hincluded := included_insert hrep name
  rw [Scan.pushInclude_of_not_contains (not_contains_of_new hrep hnew), hopen]
  refine ⟨_, rfl, ⟨hrep.resolver, ⟨hrep.reliable.program, ?_⟩, hincluded⟩, ?_, ?_⟩
  · rintro f hf
    rcases List.mem_cons.mp hf with rfl | hf
    · exact Source.reliable_ofBytes text
    · exact hrep.reliable.includes f hf
  -- the bytes of the file are no longer unread, but on the stack
  · have hunread := unread_cons_le hfile hnew
    simp only [budget, left_push]
    omega
  · simp only [outstanding, lines_push]

/-! ## The loop -/

/-- A request that is granted leaves no token. -/
theorem perform_of_granted {name : String} {status : IncludeStatus} {s' : Scanner}
    (hpush : Scan.pushInclude name s = .ok status s') (hstatus : status ≠ .notFound) :
    perform (.request name) s = .ok [] s' := by
  have hgrant : grant name s = .ok () s' := by
    rw [grant, bind_of_ok hpush]
    cases status with
    | notFound => exact absurd rfl hstatus
    | opened | alreadySatisfied => rfl
  rw [perform, bind_of_ok hgrant]
  rfl

theorem perform_of_missing {name : String} {s' : Scanner}
    (hpush : Scan.pushInclude name s = .ok .notFound s') :
    ∃ position failed, perform (.request name) s =
      .error (.reported (.ofCause (.includeNotFound name) position)) failed := by
  have hgrant : grant name s = Scan.fail (.includeNotFound name) s' := by
    rw [grant, bind_of_ok hpush]
  rw [perform, bind_of_error (hgrant.trans rfl)]
  exact ⟨some s'.position, _, rfl⟩

/-- **What performing a statement comes to**: the error that the texts
come to with it, or tokens and a scanner with the rest of what they come
to outstanding. -/
theorem perform_cases (statement : Statement) (hrep : Represents files requested s) :
    let value := resume s.options files requested (s.stack.lines s.options.maxLine)
      (statement, s.head.inComment)
    (∃ cause position failed,
      perform statement s = .error (.reported (.ofCause cause position)) failed ∧
      value = .error cause) ∨
    (∃ these requested' s', perform statement s = .ok these s' ∧
      Represents files requested' s' ∧ budget files requested' s' ≤ budget files requested s ∧
      value = (outstanding files requested' s').map (these ++ ·)) := by
  cases statement with
  | tokens tokens => exact .inr ⟨tokens, requested, s, rfl, hrep, Nat.le_refl _, rfl⟩
  | request name =>
    -- a request leaves no token of its own in front of the rest
    have hnothing : ∀ value : Except Cause (List Token), value = value.map ([] ++ ·) := by
      rintro (_ | _) <;> rfl
    rw [resume]
    by_cases hold : name ∈ requested
    · have hperform := perform_of_granted (pushInclude_of_old hrep hold) nofun
      rw [if_pos hold]
      exact .inr ⟨[], requested, s, hperform, hrep, Nat.le_refl _, hnothing _⟩
    rw [if_neg hold]
    cases hfile : files.lookup name with
    | none =>
      obtain ⟨s', hpush⟩ := pushInclude_of_missing hrep hold hfile
      obtain ⟨position, failed, hperform⟩ := perform_of_missing hpush
      exact .inl ⟨_, position, failed, hperform, rfl⟩
    | some text =>
      obtain ⟨s', hpush, hrep', hbudget, hvalue⟩ := pushInclude_of_file hrep hold hfile
      have hperform := perform_of_granted hpush nofun
      exact .inr ⟨[], name :: requested, s', hperform, hrep', hbudget,
        hvalue.symm.trans (hnothing _)⟩

theorem listFrom_of_line {s' : Scanner} (tokens : List Token) (fuel : Nat)
    (hline : Scan.getLine s = .ok true s') :
    listFrom tokens (fuel + 1) s =
      (readStatement >>= fun statement => perform statement >>= fun these =>
        listFrom (these.reverseAux tokens) fuel) s' := by
  rw [listFrom, bind_of_ok hline, if_pos rfl, statement_eq, bind_assoc]

theorem listFrom_of_no_line {s' : Scanner} (tokens : List Token) (fuel : Nat)
    (hline : Scan.getLine s = .ok false s') :
    listFrom tokens (fuel + 1) s = .ok (some (endToken :: tokens).reverse) s' := by
  rw [listFrom, bind_of_ok hline]
  rfl

/-- Where the stack has no line left, none is fetched. -/
theorem getLine_of_none (hrep : Represents files requested s)
    (hnext : Stack.nextLine (s.stack.lines s.options.maxLine) = none) :
    ∃ s', Scan.getLine s = .ok false s' :=
  Scan.getLine_of_nextLine_none hrep.reliable hnext

/-- The line that is fetched is the next of those left. -/
theorem getLine_of_some {line : Bytes} {below : List (List Bytes)}
    (hrep : Represents files requested s)
    (hnext : Stack.nextLine (s.stack.lines s.options.maxLine) = some (line, below)) :
    ∃ stack, Scan.getLine s =
        .ok true { s with stack, head := s.head.load line, saved := none } ∧
      stack.lines s.options.maxLine = below ∧ stack.Reliable :=
  Scan.getLine_of_nextLine_some hrep.reliable hnext

/-- The loop on from a line comes to what the texts left come to. -/
theorem follows_listFrom {fuel : Nat} (tokens : List Token) (hrep : Represents files requested s)
    (hfuel : budget files requested s < fuel) :
    Follows (fun found _ rest => found = some (tokens.reverse ++ rest)) (listFrom tokens fuel s)
      (outstanding files requested s) := by
  -- the induction is on the allowance: a line that is fetched costs a byte
  induction fuel generalizing s tokens requested with
  | zero => omega
  | succ fuel ih =>
    cases hnext : Stack.nextLine (s.stack.lines s.options.maxLine) with
    | none =>
      obtain ⟨s', hline⟩ := getLine_of_none hrep hnext
      rw [outstanding, expandAll_of_none hnext, listFrom_of_no_line tokens fuel hline]
      exact ⟨_, _, rfl, by rw [List.reverse_cons]⟩
    | some found =>
      obtain ⟨line, below⟩ := found
      obtain ⟨stack, hline, rfl, hreliable⟩ := getLine_of_some hrep hnext
      -- the byte that pays for this turn
      have hleft : stack.left < s.stack.left := Scan.left_getLine hline
      rw [outstanding, expandAll_of_some hnext, listFrom_of_line tokens fuel hline]
      have hhead : s.head.load line = { ahead := line, inComment := s.head.inComment } := rfl
      refine (follows_readStatement rfl hhead).bind ?_
      rintro _ _ ⟨statement, _⟩ - ⟨rfl, h, rfl, rfl⟩
      have hrep' : Represents files requested { s with stack, head := h, saved := none } :=
        ⟨hrep.resolver, hreliable, hrep.included⟩
      rcases perform_cases statement hrep' with
        ⟨cause, position, failed, hperform, hvalue⟩ |
        ⟨these, requested', s', hperform, hrep'', hbudget, hvalue⟩
      · dsimp only at hvalue
        rw [hvalue]
        exact ⟨position, failed, bind_of_error hperform⟩
      · have hrest := ih (these.reverseAux tokens) hrep'' (by
          simp only [budget] at hbudget hfuel ⊢
          omega)
        dsimp only at hvalue
        rw [hvalue, bind_of_ok hperform]
        refine hrest.map fun found _ rest hfound => ?_
        rw [hfound, List.reverseAux_eq, List.reverse_append, List.reverse_reverse,
          List.append_assoc]

/-- The allowance of a listing pays for every line. -/
theorem budget_lt_allowance (hrep : Represents files [] s) :
    budget files [] s < allowance s := by
  have hvolume : s.resolver.volume = unread files [] := by
    have hall : unrequested files [] = files := by simp [unrequested]
    simp only [hrep.resolver, Resolver.ofTexts, Resolver.volume, unread, hall, total_map,
      Source.size, Source.ofBytes, Feed.size, total, Nat.add_zero]
  rw [budget, allowance, hvolume]
  rcases Nat.eq_zero_or_pos (unread files []) with hzero | hpos
  · rw [hzero]
    omega
  · have hmul := Nat.le_mul_of_pos_left (unread files [])
      (show 0 < s.stack.left + 2 * unread files [] by omega)
    omega

/-- A listing from the program's first line on comes to what the program
does. -/
theorem follows_list (hrep : Represents files [] s) :
    Follows (fun tokens _ expected => tokens = expected) (list s) (outstanding files [] s) := by
  have hrun := follows_listFrom [] hrep (budget_lt_allowance hrep)
  unfold list
  cases hvalue : outstanding files [] s with
  | error cause =>
    rw [hvalue] at hrun
    obtain ⟨position, failed, hrun⟩ := hrun
    rw [hrun]
    exact ⟨position, failed, rfl⟩
  | ok tokens =>
    rw [hvalue] at hrun
    obtain ⟨_, s', hrun, rfl⟩ := hrun
    rw [hrun]
    exact ⟨_, s', rfl, rfl⟩

/-- The text of a program is the only one on the stack when a pass
begins. -/
theorem expandAll_program (options : Options) (files : List (String × Bytes)) (program : Bytes) :
    expandAll options files [] false [Bytes.logicalLines options.maxLine program] =
      expansion options files program := by
  rw [expandAll, expansion]
  cases expand options files [] false (Bytes.logicalLines options.maxLine program) <;> rfl

/-- Making a listing of a text comes to its expansion. -/
theorem follows_make (options : Options) (files : List (String × Bytes)) (program : Bytes) :
    Follows (fun tokens _ expected => tokens = expected)
      (make (Scanner.start options (.ofTexts files) (.ofBytes program)))
      (expansion options files program) := by
  let begun : Scanner :=
    { options
      resolver := .ofTexts files
      stack := { program := { Source.ofBytes program with rewinds := 1 } } }
  have hrewind : Scan.rewind (Scanner.start options (.ofTexts files) (.ofBytes program)) =
      .ok () begun := rfl
  have hrep : Represents files [] begun := by
    refine ⟨rfl, ⟨⟨fun _ => rfl, fun _ => rfl⟩, by simp [begun]⟩, fun name => ?_⟩
    rw [OrderedSet.contains_empty]
    simp
  have hlines : outstanding files [] begun = expansion options files program := by
    rw [← expandAll_program]
    simp [outstanding, begun, Stack.lines, Stack.linesOf, Source.lines, Source.ofBytes]
  rw [make, Scan.runPass, bind_of_ok hrewind, ← hlines]
  exact (follows_list hrep).closing

/-- **A listing is the expansion of its program.** Made of any text with
any table of include files and any options, it has the tokens of the
expansion, or fails of the cause that the expansion fails of. -/
theorem make_eq_expansion (options : Options) (files : List (String × Bytes)) (program : Bytes) :
    let run := make (Scanner.start options (.ofTexts files) (.ofBytes program))
    match expansion options files program with
    | .ok tokens => ∃ s, run = .ok tokens s
    | .error cause => ∃ position s, run = .error (.reported (.ofCause cause position)) s := by
  have hrun := follows_make options files program
  dsimp only
  cases hvalue : expansion options files program with
  | error cause =>
    rw [hvalue] at hrun
    exact hrun
  | ok tokens =>
    rw [hvalue] at hrun
    obtain ⟨_, s, hrun, rfl⟩ := hrun
    exact ⟨s, hrun⟩

end Listing

end BasicLexer
