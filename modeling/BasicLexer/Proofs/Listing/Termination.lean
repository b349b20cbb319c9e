import BasicLexer.Proofs.Client.Origin
import BasicLexer.Proofs.Input.LinesLeft
import BasicLexer.Proofs.Listing.Simulation
import BasicLexer.Proofs.Scanner.LineTokens

/-!
# Listings — the loop comes to an end

`Listing.Loop` is the loop that makes a listing, with no allowance of
lines, and with a count of those it fetches. It runs over sources that
may fail at any call. Every line it fetches is a logical line that an open
file has left, and a file is opened with its lines once for its name: what
is ahead of a scanner (`Scanner.linesAhead`) loses a line at each fetch,
and gets none at a statement. So the loop ends, within the lines of the
program and of the files of the table, and within the allowance that a
listing is made with (`Listing.list_terminates`).
-/

namespace BasicLexer

/-! ## The lines ahead of a scanner -/

namespace Scanner

variable {files : List (String × Source)} {s s' s'' : Scanner}

/-- The lines that are ahead of a scanner: those that the open files have
left, and those of the files of the table that are not included yet. -/
def linesAhead (files : List (String × Source)) (s : Scanner) : Nat :=
  s.stack.linesLeft s.options.maxLine +
    total (fun f => (f.2.lines s.options.maxLine).length)
      (files.filter fun f => !s.included.contains f.1)

/-- From one state to another there come no lines ahead. -/
structure Spends (files : List (String × Source)) (s s' : Scanner) : Prop where
  options : s'.options = s.options
  resolver : s'.resolver = s.resolver
  linesAhead_le : s'.linesAhead files ≤ s.linesAhead files

namespace Spends

theorem refl (s : Scanner) : Spends files s s := ⟨rfl, rfl, Nat.le_refl _⟩

theorem trans (hfirst : Spends files s s') (hthen : Spends files s' s'') : Spends files s s'' where
  options := hthen.options.trans hfirst.options
  resolver := hthen.resolver.trans hfirst.resolver
  linesAhead_le := Nat.le_trans hthen.linesAhead_le hfirst.linesAhead_le

/-- The line that is read and the saved token are no matter. -/
theorem of_head (head : Head) (saved : Option Token) (s : Scanner) :
    Spends files s { s with head, saved } :=
  ⟨rfl, rfl, Nat.le_refl _⟩

end Spends

end Scanner

namespace Scan

open Scanner

variable {α β : Type} {files : List (String × Source)} {s s' : Scanner}

/-- A fetched line is one of those ahead. -/
theorem linesAhead_getLine (files : List (String × Source)) (hline : getLine s = .ok true s') :
    s'.options = s.options ∧ s'.resolver = s.resolver ∧
      s'.linesAhead files < s.linesAhead files := by
  obtain ⟨b, raw, stack, hfetch, rfl⟩ := fetch_of_getLine hline
  have hleft : stack.linesLeft s.options.maxLine < s.stack.linesLeft s.options.maxLine :=
    Stack.linesLeft_fetchFrom hfetch
  refine ⟨rfl, rfl, ?_⟩
  simp only [linesAhead]
  omega

/-- A computation that brings no lines ahead, where it succeeds. -/
def Spends (files : List (String × Source)) (x : Scan α) : Prop :=
  ∀ s a s', s.resolver = .table files → x s = .ok a s' → Scanner.Spends files s s'

namespace Spends

theorem pure (a : α) : Spends files (Pure.pure a : Scan α) := by
  rintro s _ _ - ⟨⟩
  exact .refl s

theorem fail (cause : Cause) : Spends files (Scan.fail cause : Scan α) := by
  rintro s _ _ - ⟨⟩

theorem bind {x : Scan α} {f : α → Scan β} (hx : x.Spends files) (hf : ∀ a, (f a).Spends files) :
    (x >>= f).Spends files := by
  intro s b s'' hresolver hrun
  obtain ⟨a, s', hfirst, hrest⟩ := bind_eq_ok hrun
  have hspends := hx s a s' hresolver hfirst
  exact hspends.trans (hf a s' b s'' (hspends.resolver.trans hresolver) hrest)

end Spends

theorem spends_getToken : Spends files getToken := by
  intro s token s' _ hrun
  rcases getToken_eq_ok hrun with ⟨-, rfl⟩ | ⟨-, head, -, rfl⟩
  · exact .of_head s.head none s
  · exact ⟨rfl, rfl, Nat.le_refl _⟩

theorem spends_requireToken (token : Token) (kind : Kind) :
    Spends files (requireToken token kind) := by
  intro s _ s' _ hrun
  rw [requireToken] at hrun
  split at hrun <;> cases hrun
  exact .refl s

theorem spends_fetchAndRequire (kind : Kind) : Spends files (fetchAndRequire kind) :=
  spends_getToken.bind fun token => spends_requireToken token kind

/-- **A file that is opened** brings its lines from the table to the open
files, if the table has it. -/
theorem spends_of_pushInclude {name : String} {status : IncludeStatus}
    (hfile : ∀ source, s.resolver.open? name = some source → (name, source) ∈ files)
    (hrun : pushInclude name s = .ok status s') : Scanner.Spends files s s' := by
  have himp (f : String × Source)
      (hf : (!(s.included.insert name).2.contains f.1) = true) :
      (!s.included.contains f.1) = true := by
    rw [Bool.not_eq_true', ← Bool.not_eq_true] at hf ⊢
    exact fun h => hf (OrderedSet.contains_insert.mpr (.inr h))
  rcases pushInclude_cases hrun with
    ⟨-, -, rfl⟩ | ⟨-, -, -, rfl⟩ | ⟨source, hnew, hopen, -, rfl⟩
  · exact .refl s'
  · refine ⟨rfl, rfl, ?_⟩
    exact Nat.add_le_add_left
      (total_le_of_sublist _ (List.monotone_filter_right files himp)) _
  · refine ⟨rfl, rfl, ?_⟩
    have hmem : (name, source) ∈ files.filter fun f => !s.included.contains f.1 :=
      List.mem_filter.mpr ⟨hfile source hopen, by rw [hnew]; rfl⟩
    have hgone : (!(s.included.insert name).2.contains name) = false := by
      rw [OrderedSet.contains_insert.mpr (.inl rfl)]
      rfl
    have hsum := add_total_filter_le (fun f => (f.2.lines s.options.maxLine).length) himp hmem
      hgone
    simp only [linesAhead, Stack.linesLeft, Stack.push, Stack.lines, Stack.linesOf, List.map_cons,
      List.cons_append, List.flatten_cons, List.length_append] at hsum ⊢
    omega

theorem spends_pushInclude (name : String) : Spends files (pushInclude name) := by
  intro s status s' hresolver hrun
  refine spends_of_pushInclude (fun source hopen => ?_) hrun
  rw [hresolver, Resolver.open?, List.lookup_eq_some_iff] at hopen
  obtain ⟨before, after, rfl, -⟩ := hopen
  exact List.mem_append_right _ List.mem_cons_self

theorem spends_endOfText : Spends files Listing.endOfText := by
  rintro s _ _ - ⟨⟩
  exact .refl s

end Scan

namespace Listing

open Scan Scanner

variable {files : List (String × Source)}

theorem spends_lineFrom (tokens : List Token) (token : Token) :
    Scan.Spends files (lineFrom tokens token) := by
  intro s all s'
  fun_induction lineFrom tokens token s with
  | case1 tokens token s hend =>
    rintro - ⟨⟩
    exact .refl _
  | case2 tokens token s hend next s₁ hget ih =>
    intro hresolver hrun
    have hspends := spends_getToken s next s₁ hresolver hget
    exact hspends.trans (ih (hspends.resolver.trans hresolver) hrun)
  | case3 tokens token s hend failure s₁ hget =>
    rintro - ⟨⟩

/-- **A statement brings no lines ahead.** -/
theorem spends_statement : Scan.Spends files statement := by
  have hopen : Scan.Spends files openInclude :=
    (spends_fetchAndRequire .string).bind fun name =>
      (spends_fetchAndRequire .endOfLine).bind fun _ =>
        (spends_pushInclude name.text).bind fun status => by
          cases status with
          | notFound => exact .fail _
          | opened | alreadySatisfied => exact .pure ()
  refine spends_getToken.bind fun first => ?_
  split
  · exact hopen.bind fun _ => .pure []
  split
  · exact spends_endOfText.bind fun last => .pure [first, last]
  · exact spends_lineFrom [] first

/-! ## The loop -/

/-- The loop that makes a listing, after the tokens given in reverse: how
many lines it fetches, and what it ends in. -/
inductive Loop : List Token → Scanner → Nat →
    EStateM.Result (Failure Diagnostic) Scanner (List Token) → Prop
  /-- The next line cannot be fetched. -/
  | unreadable {tokens : List Token} {s s' : Scanner} {failure : Failure Diagnostic}
      (hline : getLine s = .error failure s') : Loop tokens s 0 (.error failure s')
  /-- There is no next line. -/
  | exhausted {tokens : List Token} {s s' : Scanner} (hline : getLine s = .ok false s') :
      Loop tokens s 0 (.ok (endToken :: tokens).reverse s')
  /-- The statement on the next line fails. -/
  | rejected {tokens : List Token} {s s₁ s' : Scanner} {failure : Failure Diagnostic}
      (hline : getLine s = .ok true s₁) (hstatement : statement s₁ = .error failure s') :
      Loop tokens s 1 (.error failure s')
  /-- The statement leaves its tokens, and the loop goes on. -/
  | line {tokens these : List Token} {s s₁ s₂ : Scanner} {lines : Nat}
      {result : EStateM.Result (Failure Diagnostic) Scanner (List Token)}
      (hline : getLine s = .ok true s₁) (hstatement : statement s₁ = .ok these s₂)
      (hrest : Loop (these.reverseAux tokens) s₂ lines result) : Loop tokens s (lines + 1) result

/-- **The loop ends** if no statement on its lines brings lines ahead, and
it fetches no more lines than there are. -/
theorem exists_loop_of (kept : Scanner → Prop)
    (hturn : ∀ {s s₁ s₂ these}, kept s → getLine s = .ok true s₁ → statement s₁ = .ok these s₂ →
      kept s₂ ∧ s₂.linesAhead files ≤ s₁.linesAhead files)
    (tokens : List Token) {s : Scanner} (hs : kept s) :
    ∃ lines result, Loop tokens s lines result ∧ lines ≤ s.linesAhead files := by
  induction hahead : s.linesAhead files using Nat.strongRecOn generalizing s tokens with
  | ind ahead ih =>
    cases hline : getLine s with
    | error failure s' => exact ⟨0, _, .unreadable hline, Nat.zero_le _⟩
    | ok found s₁ =>
      cases found with
      | false => exact ⟨0, _, .exhausted hline, Nat.zero_le _⟩
      | true =>
        have hlt := (linesAhead_getLine files hline).2.2
        cases hstatement : statement s₁ with
        | error failure s' => exact ⟨1, _, .rejected hline hstatement, by omega⟩
        | ok these s₂ =>
          obtain ⟨hs₂, hle⟩ := hturn hs hline hstatement
          obtain ⟨lines, result, hloop, hlines⟩ :=
            ih _ (by omega) (these.reverseAux tokens) hs₂ rfl
          exact ⟨lines + 1, result, .line hline hstatement hloop, by omega⟩

/-- So it ends over a table, whatever the scanner has come to. -/
theorem exists_loop (tokens : List Token) {s : Scanner} (hresolver : s.resolver = .table files) :
    ∃ lines result, Loop tokens s lines result ∧ lines ≤ s.linesAhead files := by
  refine exists_loop_of (fun s => s.resolver = .table files) ?_ tokens hresolver
  intro s s₁ s₂ these hs hline hstatement
  have hs₁ := (linesAhead_getLine files hline).2.1.trans hs
  have hspends := spends_statement s₁ these s₂ hs₁ hstatement
  exact ⟨hspends.resolver.trans hs₁, hspends.linesAhead_le⟩

/-- What a listing is that was made within its allowance. -/
def within : EStateM.Result (Failure Diagnostic) Scanner (List Token) →
    EStateM.Result (Failure Diagnostic) Scanner (Option (List Token))
  | .ok all s => .ok (some all) s
  | .error failure s => .error failure s

/-- With an allowance beyond the lines that the loop fetches, a listing is
what the loop ends in. -/
theorem Loop.listFrom_eq {tokens : List Token} {s : Scanner} {lines : Nat}
    {result : EStateM.Result (Failure Diagnostic) Scanner (List Token)}
    (hloop : Loop tokens s lines result) {fuel : Nat} (hfuel : lines < fuel) :
    listFrom tokens fuel s = within result := by
  induction hloop generalizing fuel with
  | unreadable hline =>
    obtain ⟨fuel, rfl⟩ := Nat.exists_eq_add_of_lt hfuel
    rw [listFrom, bind_of_error hline, within]
  | exhausted hline =>
    obtain ⟨fuel, rfl⟩ := Nat.exists_eq_add_of_lt hfuel
    exact listFrom_of_no_line _ _ hline
  | rejected hline hstatement =>
    obtain ⟨fuel, rfl⟩ := Nat.exists_eq_add_of_lt hfuel
    rw [listFrom, bind_of_ok hline, if_pos rfl, bind_of_error hstatement, within]
  | line hline hstatement hrest ih =>
    obtain ⟨fuel, rfl⟩ := Nat.exists_eq_add_of_lt hfuel
    rw [listFrom, bind_of_ok hline, if_pos rfl, bind_of_ok hstatement]
    exact ih (Nat.lt_of_succ_lt_succ hfuel)

theorem Loop.list_eq {s : Scanner} {lines : Nat}
    {result : EStateM.Result (Failure Diagnostic) Scanner (List Token)}
    (hloop : Loop [] s lines result) (hlines : lines < allowance s) : list s = result := by
  rw [list, hloop.listFrom_eq hlines]
  cases result <;> rfl

/-! ## The bound -/

section Bound

variable {s : Scanner}

/-- The lines of a program and of the files of a table. -/
def linesInAll (limit : Nat) (files : List (String × Source)) (program : Source) : Nat :=
  (program.allLines limit).length + total (fun f => (f.2.allLines limit).length) files

/-- Before the first line is fetched, all lines are ahead. -/
theorem linesAhead_eq (hincluded : s.included = .empty) (hincludes : s.stack.includes = [])
    (hprogram : s.stack.program.pending = s.stack.program.contents) :
    s.linesAhead (files.map fun f => (f.1, f.2.fresh)) =
      linesInAll s.options.maxLine files s.stack.program := by
  have hnone : (files.map fun f => (f.1, f.2.fresh)).filter (fun f => !s.included.contains f.1) =
      files.map fun f => (f.1, f.2.fresh) := by
    rw [List.filter_eq_self]
    intro f _
    rw [hincluded, OrderedSet.contains_empty]
    rfl
  have hlines : s.stack.program.lines s.options.maxLine =
      s.stack.program.allLines s.options.maxLine := by
    rw [Source.lines, hprogram, Source.allLines]
  rw [linesAhead, hnone, total_map, linesInAll, Stack.linesLeft, Stack.lines, Stack.linesOf,
    hincludes, hlines]
  simp only [List.map_nil, List.nil_append, List.flatten_cons, List.flatten_nil, List.append_nil]
  rfl

/-- The allowance of a listing is more than the lines ahead. -/
theorem linesAhead_lt_allowance (hresolver : s.resolver = .ofSources files) :
    s.linesAhead (files.map fun f => (f.1, f.2.fresh)) < allowance s := by
  have hstack := Stack.linesLeft_le_left s.options.maxLine s.stack
  have hfiles : total (fun f => (f.2.lines s.options.maxLine).length)
      ((files.map fun f => (f.1, f.2.fresh)).filter fun f => !s.included.contains f.1) ≤
        s.resolver.volume := by
    refine Nat.le_trans (total_le_of_sublist _ List.filter_sublist) ?_
    rw [hresolver, Resolver.ofSources, Resolver.volume]
    refine total_le_total fun f hf => ?_
    obtain ⟨file, -, rfl⟩ := List.mem_map.mp hf
    exact Source.length_lines_le _ file.2.fresh
  rw [linesAhead, allowance]
  rcases Nat.eq_zero_or_pos s.resolver.volume with hzero | hpos
  · rw [hzero] at hfiles ⊢
    omega
  · have hmul := Nat.le_mul_of_pos_left s.resolver.volume
      (show 0 < s.stack.left + 2 * s.resolver.volume by omega)
    omega

/-- A listing that begins a program is what the loop ends in. -/
theorem loop_of_beginning (hresolver : s.resolver = .ofSources files)
    (hincluded : s.included = .empty) (hincludes : s.stack.includes = [])
    (hprogram : s.stack.program.pending = s.stack.program.contents) :
    ∃ lines result, Loop [] s lines result ∧
      lines ≤ linesInAll s.options.maxLine files s.stack.program ∧ list s = result := by
  obtain ⟨lines, result, hloop, hlines⟩ := exists_loop [] hresolver
  have hallowed := linesAhead_lt_allowance hresolver
  refine ⟨lines, result, hloop, ?_, hloop.list_eq (by omega)⟩
  rw [← linesAhead_eq hincluded hincludes hprogram]
  exact hlines

end Bound

end Listing

namespace Listing

open Scan

/-- **The loop ends** for every program and every table of include files,
whatever their lines ask for, whichever fetches of them fail, and whatever
the limit of a line. From the beginning, and from that of any pass, it
fetches no more lines than the program and the files have in all, and a
listing is what it ends in. On each line that is fetched, one token after
another is taken at most once for each byte and once more until the line
ends or one fails. -/
theorem list_terminates (options : Options) (files : List (String × Source)) (program : Source) :
    let start := Scanner.start options (.ofSources files) program.fresh
    let most := linesInAll options.maxLine files program
    (∃ lines result, Loop [] start lines result ∧ lines ≤ most ∧ list start = result) ∧
    (∀ ops begun, rewind (Operation.afterAll ops start) = .ok () begun →
      ∃ lines result, Loop [] begun lines result ∧ lines ≤ most ∧ list begun = result) ∧
    (∀ s s₁, getLine s = .ok true s₁ →
      (lineTokens s₁).1.1.length + (lineTokens s₁).1.2.toList.length ≤ s₁.head.lineLength + 1 ∧
      ((lineTokens s₁).1.2 = none →
        ∃ last, (lineTokens s₁).1.1.getLast? = some last ∧ last.kind = .endOfLine)) := by
  intro start most
  refine ⟨loop_of_beginning rfl rfl rfl rfl, fun ops begun hbegin => ?_,
    fun s s₁ hline => ⟨?_, ?_⟩⟩
  · have hfrom : start.From (Operation.afterAll ops start) := Operation.from_afterAll ops start
    obtain ⟨hoptions, hresolver, hincluded, hincludes, hcontents, hpending⟩ :=
      begins_of_rewind hbegin
    have hmost : most = linesInAll begun.options.maxLine files begun.stack.program := by
      rw [linesInAll, Source.allLines, hoptions, hfrom.options, hcontents, hfrom.program.contents]
      rfl
    rw [hmost]
    exact loop_of_beginning (hresolver.trans hfrom.resolver) hincluded hincludes hpending
  · rw [← supply_getLine hline]
    exact length_lineTokens_le s₁
  · exact getLast?_lineTokens s₁

end Listing

end BasicLexer
