import BasicLexer.Proofs.Client.Columns
import BasicLexer.Proofs.Client.Registry

/-!
# Clients — the saved token and the boundaries of files

A fetch crosses a boundary if it closes an include file, be it that the file
is exhausted or that the fetch fails, or if it finds the program exhausted. It
drops the saved token if it comes to a line, and carries it over the boundary
if it comes to none. A token is also left behind where a fetch loses its line,
and where anything else opens a file above the one it is of or closes that
file. `Operation.saved_cleared_iff` has it that no boundary is crossed with a
token pending exactly if none is carried over one, and that moreover every
pending token is of the line and the file that are read exactly if none is left
behind.
-/

namespace BasicLexer

/-- The line that is read is the same as in another state, and so are the files
that are open, with the place reached in each. -/
structure Scanner.SamePlace (s s' : Scanner) : Prop where
  line : s'.head.line = s.head.line
  stack : s'.stack = s.stack
  file : s'.activeFile = s.activeFile

namespace Scanner.SamePlace

variable {s s' s'' : Scanner}

theorem refl (s : Scanner) : SamePlace s s := ⟨rfl, rfl, rfl⟩

theorem trans (h₁ : SamePlace s s') (h₂ : SamePlace s' s'') : SamePlace s s'' where
  line := h₂.line.trans h₁.line
  stack := h₂.stack.trans h₁.stack
  file := h₂.file.trans h₁.file

/-- With the same names included the file is that of the stack. -/
theorem of_included (hline : s'.head.line = s.head.line) (hstack : s'.stack = s.stack)
    (hincluded : s'.included = s.included) : SamePlace s s' where
  line := hline
  stack := hstack
  file := by rw [activeFile, activeFile, hstack, hincluded]

end Scanner.SamePlace

namespace Operation

variable {s : Scanner} {op : Operation} {t : Token}

/-- Whether an operation comes to a line. -/
def Fetches : Operation → Scanner → Prop
  | getLine, s => ∃ b line, (s.stack.fetch s.options.maxLine).1 = .ok (b :: line)
  | _, _ => False

/-- Whether an operation crosses the boundary of a file: it is a fetch, and
after it fewer include files are open or the program is exhausted. Those that a
fetch closes because it fails are among them. -/
def Crosses : Operation → Scanner → Prop
  | getLine, s =>
    (getLine.after s).stack.depth < s.stack.depth ∨ (s.stack.fetch s.options.maxLine).1 = .ok []
  | _, _ => False

/-- Whether an operation leaves the line or the file that is read: it fetches,
whatever comes of it, or starts over, or there are more or fewer files open
after it. A request for an include file may open one; what closes them all may
be asked to, or fail. -/
def Leaves (op : Operation) (s : Scanner) : Prop :=
  op = getLine ∨ op = rewind ∨ (op.after s).stack.depth ≠ s.stack.depth

/-- Whether an operation carries a token over a boundary: one is pending, a
boundary is crossed, and no line is come to. -/
def Carries (op : Operation) (s : Scanner) : Prop :=
  op.Crosses s ∧ s.saved ≠ none ∧ ¬ op.Fetches s

/-- Whether an operation strands a token: one is pending, the line or the file
that is read is left, and one is pending still. -/
def Strands (op : Operation) (s : Scanner) : Prop :=
  s.saved ≠ none ∧ op.Leaves s ∧ (op.after s).saved ≠ none

/-- No operation of a run does a thing. -/
def Never (does : Operation → Scanner → Prop) (s : Scanner) (ops : List Operation) : Prop :=
  ∀ before op, before ++ [op] <+: ops → ¬ does op (afterAll before s)

namespace Never

variable {does : Operation → Scanner → Prop} {before ops : List Operation}

theorem nil : Never does s [] := fun before _ hwithin =>
  absurd (List.prefix_nil.mp hwithin) (List.append_ne_nil_of_right_ne_nil before nofun)

theorem mono (hops : Never does s ops) (hbefore : before <+: ops) : Never does s before :=
  fun earlier op hwithin => hops earlier op (hwithin.trans hbefore)

theorem last (hops : Never does s (ops ++ [op])) : ¬ does op (afterAll ops s) :=
  hops ops op List.prefix_rfl

theorem concat (hops : Never does s ops) (hop : ¬ does op (afterAll ops s)) :
    Never does s (ops ++ [op]) := by
  intro earlier next hwithin
  rcases List.prefix_concat_iff.mp hwithin with hall | hwithin
  · obtain ⟨rfl, hnext⟩ := List.append_inj' hall rfl
    cases hnext
    exact hop
  · exact hops earlier next hwithin

end Never

/-! ## The saved token after an operation -/

theorem saved_reading {α : Type} (x : Reader α) (s : Scanner) :
    (Scan.after (Scan.reading x) s).saved = s.saved := by
  rw [Scan.after, Scan.reading]
  rcases x s.head with ⟨_, _⟩ | ⟨⟨_⟩ | ⟨_⟩, _⟩ <;> rfl

/-- A fetch that comes to a line drops the saved token. -/
theorem saved_getLine_of_fetches (hfetches : getLine.Fetches s) :
    (getLine.after s).saved = none := by
  obtain ⟨b, line, hfetch⟩ := hfetches
  rw [after, run, Scan.after_silent, Scan.after, Scan.getLine]
  rcases hrun : s.stack.fetch s.options.maxLine with ⟨found, stack⟩
  rw [hrun] at hfetch
  cases hfetch
  rfl

/-- One that does not keeps it. -/
theorem saved_getLine_of_not_fetches (hfetches : ¬ getLine.Fetches s) :
    (getLine.after s).saved = s.saved := by
  rw [after, run, Scan.after_silent, Scan.after, Scan.getLine]
  rcases hrun : s.stack.fetch s.options.maxLine with ⟨_ | _ | ⟨b, line⟩, stack⟩
  · rfl
  · rfl
  · exact absurd ⟨b, line, by rw [hrun]⟩ hfetches

theorem saved_rewind (s : Scanner) : (rewind.after s).saved = none := by
  rw [after, run, Scan.after, Scan.rewind]
  rcases Stack.rewind _ with ⟨_ | _, stack⟩ <;> rfl

/-- Taking a token leaves none pending, whether it was or not. -/
theorem saved_getToken (s : Scanner) : (getToken.after s).saved = none := by
  rw [after, run, Scan.after_silent, Scan.after, Scan.getToken]
  cases hsaved : s.saved with
  | some token => rfl
  | none =>
    have hreading := saved_reading (Lexeme.read s.options) s
    rw [hsaved] at hreading
    exact hreading

theorem saved_saveToken (token : Token) (s : Scanner) :
    ((saveToken token).after s).saved = s.saved.or (some token) := by
  rw [after, run, Scan.after, Scan.saveToken]
  cases hsaved : s.saved with
  | some other => exact hsaved
  | none => rfl

theorem saved_requireToken (token : Token) (kind : Kind) (s : Scanner) :
    ((requireToken token kind).after s).saved = s.saved := by
  rw [after, run, Scan.after_silent, Scan.after, Scan.requireToken]
  by_cases hkind : token.kind = kind
  · rw [if_pos hkind]
  · rw [if_neg hkind]
    rfl

theorem saved_pushInclude (name : String) (s : Scanner) :
    ((pushInclude name).after s).saved = s.saved := by
  rw [after, run, Scan.after_silent, Scan.after, Scan.pushInclude]
  rcases s.included.insert name with ⟨⟨entry, _ | _⟩, included⟩
  · rfl
  · dsimp only
    cases s.resolver.open? name <;> rfl

/-- **A pending token** was pending before, with no line fetched since, or has
just been saved. -/
theorem pending_of_after (hpending : (op.after s).saved = some t) :
    s.saved = some t ∧ ¬ op.Fetches s ∨ s.saved = none ∧ op = saveToken t := by
  cases op with
  | getLine =>
    by_cases hfetches : getLine.Fetches s
    · rw [saved_getLine_of_fetches hfetches] at hpending
      cases hpending
    · rw [saved_getLine_of_not_fetches hfetches] at hpending
      exact .inl ⟨hpending, hfetches⟩
  | getToken =>
    rw [saved_getToken] at hpending
    cases hpending
  | saveToken token =>
    rw [saved_saveToken] at hpending
    cases hsaved : s.saved with
    | some other =>
      rw [hsaved] at hpending
      exact .inl ⟨hpending, id⟩
    | none =>
      rw [hsaved] at hpending
      cases hpending
      exact .inr ⟨rfl, rfl⟩
  | requireToken token kind =>
    rw [saved_requireToken] at hpending
    exact .inl ⟨hpending, id⟩
  | nextChar =>
    rw [after, run, Scan.after_silent, saved_reading] at hpending
    exact .inl ⟨hpending, id⟩
  | skipSpaces =>
    rw [after, run, Scan.after_silent, saved_reading] at hpending
    exact .inl ⟨hpending, id⟩
  | pushBack =>
    rw [after, run, saved_reading] at hpending
    exact .inl ⟨hpending, id⟩
  | pushInclude name =>
    rw [saved_pushInclude] at hpending
    exact .inl ⟨hpending, id⟩
  | closeAll => exact .inl ⟨hpending, id⟩
  | rewind =>
    rw [saved_rewind] at hpending
    cases hpending
  | fail message arguments => exact .inl ⟨hpending, id⟩

/-- An operation that crosses a boundary leaves no token pending exactly
if it carries none over. -/
theorem saved_eq_none_iff : (op.Crosses s → (op.after s).saved = none) ↔ ¬ op.Carries s := by
  constructor
  · rintro hcleared ⟨hcrosses, hsaved, hfetches⟩
    cases op with
    | getLine =>
      rw [saved_getLine_of_not_fetches hfetches] at hcleared
      exact hsaved (hcleared hcrosses)
    -- no other operation crosses
    | _ => exact hcrosses
  · intro hcarries hcrosses
    cases hpending : (op.after s).saved with
    | none => rfl
    | some t =>
      rcases pending_of_after hpending with ⟨hsaved, hfetches⟩ | ⟨-, rfl⟩
      · exact absurd ⟨hcrosses, by rw [hsaved]; exact Option.some_ne_none t, hfetches⟩ hcarries
      · exact hcrosses.elim

/-- What crosses a boundary leaves, so what carries a token over one strands
it. -/
theorem Carries.strands (hcarries : op.Carries s) : op.Strands s := by
  obtain ⟨hcrosses, hsaved, hfetches⟩ := hcarries
  cases op with
  | getLine =>
    refine ⟨hsaved, .inl rfl, ?_⟩
    rwa [saved_getLine_of_not_fetches hfetches]
  | _ => exact hcrosses.elim

/-! ## The place after an operation -/

theorem line_reading {α : Type} {x : Reader α} (hx : x.Orderly) (s : Scanner) :
    (Scan.after (Scan.reading x) s).head.line = s.head.line := by
  have hleads := hx s.head
  rw [Scan.after, Scan.reading]
  rcases hrun : x s.head with ⟨a, h⟩ | ⟨⟨cause⟩ | ⟨breach⟩, h⟩ <;> rw [hrun] at hleads
  · exact hleads.line
  · exact hleads.line
  · exact hleads.elim

theorem line_pushBack (s : Scanner) :
    (Scan.after (Scan.reading Reader.pushBack) s).head.line = s.head.line := by
  simp only [Scan.after, Scan.reading, Reader.pushBack, Head.pushBack]
  by_cases hlast : s.head.lastRead = .pushedBack
  · simp only [hlast, if_true]
  · simp only [hlast, if_false]
    exact (Head.along_retract _).line

/-- The line is the same after an operation that neither fetches one nor starts
over. -/
theorem line_after (hfetch : op ≠ getLine) (hrewind : op ≠ rewind) :
    (op.after s).head.line = s.head.line := by
  cases op with
  | getLine => exact absurd rfl hfetch
  | rewind => exact absurd rfl hrewind
  | getToken =>
    rw [after, run, Scan.after_silent, Scan.after, Scan.getToken]
    cases hsaved : s.saved with
    | some token => rfl
    | none => exact line_reading (Lexeme.orderly_read _) s
  | saveToken token => exact congrArg Head.line (Scan.head_after_saveToken token s)
  | requireToken token kind =>
    rw [after, run, Scan.after_silent, head_after_requireToken]
    by_cases hkind : token.kind = kind
    · rw [if_pos hkind]
    · rw [if_neg hkind]
      rfl
  | nextChar =>
    rw [after, run, Scan.after_silent]
    exact line_reading Reader.orderly_next s
  | skipSpaces =>
    rw [after, run, Scan.after_silent]
    exact line_reading Reader.orderly_skipBlanks s
  | pushBack => exact line_pushBack s
  | pushInclude name =>
    rw [after, run, Scan.after_silent]
    exact congrArg Head.line (Scan.head_after_pushInclude name s)
  | closeAll | fail => rfl

/-- What else an operation does to the stack: nothing, or it closes every
include file, or opens one more. -/
theorem stack_after (hfetch : op ≠ getLine) (hrewind : op ≠ rewind) :
    (op.after s).stack = s.stack ∨ (op.after s).stack = s.stack.closeAll ∨
      ∃ source entry, (op.after s).stack = s.stack.push source entry := by
  have hreading {α : Type} (x : Reader α) :
      (Scan.after (Scan.reading x) s).stack = s.stack ∨
        (Scan.after (Scan.reading x) s).stack = s.stack.closeAll := by
    rw [Scan.after, Scan.reading]
    rcases x s.head with ⟨_, _⟩ | ⟨⟨_⟩ | ⟨_⟩, _⟩
    · exact .inl rfl
    · exact .inr rfl
    · exact .inl rfl
  cases op with
  | getLine => exact absurd rfl hfetch
  | rewind => exact absurd rfl hrewind
  | getToken =>
    rw [after, run, Scan.after_silent, Scan.after, Scan.getToken]
    cases s.saved with
    | some token => exact .inl rfl
    | none => exact (hreading (Lexeme.read s.options)).imp_right .inl
  | saveToken token =>
    rw [after, run, Scan.after, Scan.saveToken]
    cases s.saved <;> exact .inl rfl
  | requireToken token kind =>
    rw [after, run, Scan.after_silent, Scan.after, Scan.requireToken]
    by_cases hkind : token.kind = kind
    · rw [if_pos hkind]
      exact .inl rfl
    · rw [if_neg hkind]
      exact .inr (.inl rfl)
  | nextChar | skipSpaces =>
    rw [after, run, Scan.after_silent]
    exact (hreading _).imp_right .inl
  | pushBack => exact (hreading _).imp_right .inl
  | pushInclude name =>
    rw [after, run, Scan.after_silent, Scan.after, Scan.pushInclude]
    rcases s.included.insert name with ⟨⟨entry, _ | _⟩, included⟩
    · exact .inl rfl
    · dsimp only
      cases s.resolver.open? name with
      | some source => exact .inr (.inr ⟨source, entry, rfl⟩)
      | none => exact .inl rfl
  | closeAll | fail => exact .inr (.inl rfl)

/-- With as many files open as before, the stack is what it was. -/
theorem stack_of_not_leaves (hleaves : ¬ op.Leaves s) : (op.after s).stack = s.stack := by
  obtain ⟨hfetch, hrewind, hdepth⟩ : op ≠ getLine ∧ op ≠ rewind ∧
      (op.after s).stack.depth = s.stack.depth := by
    simpa [Leaves, not_or] using hleaves
  rcases stack_after hfetch hrewind with hsame | hclosed | ⟨source, entry, hopened⟩
  · exact hsame
  · rw [hclosed] at hdepth ⊢
    have hnone : s.stack.includes = [] := List.length_eq_zero_iff.mp hdepth.symm
    rw [Stack.closeAll, ← hnone]
  · rw [hopened] at hdepth
    exact absurd hdepth (Nat.succ_ne_self _)

/-- **What does not leave stays** with the line, the open files and the file
that is read. -/
theorem samePlace_of_not_leaves (hs : s.Registered) (hleaves : ¬ op.Leaves s) :
    s.SamePlace (op.after s) := by
  have hstack := stack_of_not_leaves hleaves
  have hline : (op.after s).head.line = s.head.line :=
    line_after (fun h => hleaves (.inl h)) fun h => hleaves (.inr (.inl h))
  rcases after_cases op s with ⟨-, -, hkeeps⟩ | ⟨name, -, hnew, hincluded, -⟩ | ⟨hrewind, -⟩
  · exact .of_included hline hstack hkeeps.included
  · refine ⟨hline, hstack, ?_⟩
    -- a name more is included, and the index of the open file is still that of its own
    rw [Scanner.activeFile, Scanner.activeFile, hstack, hincluded, Stack.active?]
    cases hfiles : s.stack.includes with
    | nil => rfl
    | cons top below =>
      have htop : top ∈ s.stack.includes := by
        rw [hfiles]
        exact List.mem_cons_self
      simp only [List.head?_cons, Option.map_some]
      rw [OrderedSet.get?_insert_of_not_contains hnew, if_neg (Nat.ne_of_lt (hs.entry_lt htop))]
  · exact absurd (.inr (.inl hrewind)) hleaves

/-! ## Runs -/

/-- Where a pending token comes from: an operation of the run has saved it, and
none since has left the line or the file. So these are the ones that were read
then. -/
structure SavedBy (s : Scanner) (t : Token) (ops earlier later : List Operation) : Prop where
  run : ops = earlier ++ [saveToken t] ++ later
  stays : Never Leaves (afterAll (earlier ++ [saveToken t]) s) later
  place : (afterAll earlier s).SamePlace (afterAll ops s)

theorem not_leaves_saveToken (t : Token) (s : Scanner) : ¬ (saveToken t).Leaves s := by
  rintro (hfetch | hrewind | hdepth)
  · cases hfetch
  · cases hrewind
  · refine hdepth ?_
    rw [after, run, Scan.after, Scan.saveToken]
    cases s.saved <;> rfl

/-- One operation more that does not leave. -/
theorem SavedBy.concat {ops earlier later : List Operation} (hs : (afterAll ops s).Registered)
    (hsaved : SavedBy s t ops earlier later) (hleaves : ¬ op.Leaves (afterAll ops s)) :
    SavedBy s t (ops ++ [op]) earlier (later ++ [op]) where
  run := by rw [hsaved.run, List.append_assoc]
  stays := hsaved.stays.concat (by rwa [← afterAll_append, ← hsaved.run])
  place := by
    rw [afterAll_append ops]
    exact hsaved.place.trans (samePlace_of_not_leaves hs hleaves)

/-- **Where no token is stranded** every pending token is of the line and the
file that are read. -/
theorem savedBy_of_never_strands {ops : List Operation} (hs : s.Registered)
    (hstart : s.saved = none) (hops : Never Strands s ops)
    (hpending : (afterAll ops s).saved = some t) :
    ∃ earlier later, SavedBy s t ops earlier later := by
  induction ops using List.reverseRecOn with
  | nil =>
    rw [show afterAll [] s = s from rfl, hstart] at hpending
    cases hpending
  | append_singleton ops op ih =>
    have hstrands := hops.last
    have hreached := hs.afterAll ops
    rw [afterAll_append] at hpending
    change (op.after (afterAll ops s)).saved = some t at hpending
    rcases pending_of_after hpending with ⟨hsaved, -⟩ | ⟨-, rfl⟩
    · obtain ⟨earlier, later, hby⟩ := ih (hops.mono (List.prefix_append _ _)) hsaved
      have hleaves : ¬ op.Leaves (afterAll ops s) := fun hleaves =>
        hstrands ⟨by rw [hsaved]; exact Option.some_ne_none t, hleaves,
          by rw [hpending]; exact Option.some_ne_none t⟩
      exact ⟨earlier, later ++ [op], hby.concat hreached hleaves⟩
    · refine ⟨ops, [], (List.append_nil _).symm, .nil, ?_⟩
      rw [afterAll_append ops]
      exact samePlace_of_not_leaves hreached (not_leaves_saveToken t _)

/-- And where one is, it is of a line or a file that was left. -/
theorem not_strands_of_savedBy {ops : List Operation}
    (hsaved : ∀ t, (op.after (afterAll ops s)).saved = some t →
      ∃ earlier later, SavedBy s t (ops ++ [op]) earlier later) :
    ¬ op.Strands (afterAll ops s) := by
  rintro ⟨-, hleaves, hpending⟩
  obtain ⟨t, ht⟩ := Option.ne_none_iff_exists'.mp hpending
  obtain ⟨earlier, later, hby⟩ := hsaved t ht
  obtain rfl | ⟨later, last, rfl⟩ := later.eq_nil_or_concat
  · -- the last operation saved the token
    obtain ⟨rfl, hop⟩ := List.append_inj' (hby.run.trans (List.append_nil _)) rfl
    cases hop
    exact not_leaves_saveToken t _ hleaves
  · -- it is one of those since
    rw [List.concat_eq_append] at hby
    have hrun := hby.run
    rw [← List.append_assoc] at hrun
    obtain ⟨rfl, hop⟩ := List.append_inj' hrun rfl
    cases hop
    rw [afterAll_append] at hleaves
    exact hby.stays.last hleaves

/-- **No boundary is crossed with a token pending**, over sources and include
files that may fail at any call, exactly if no fetch of the run carries one
over a boundary. And all that is to be had of the slot, that besides every
token taken out of it was saved on the line and in the file that are read, is
had exactly if no operation of the run strands a token. -/
theorem saved_cleared_iff (options : Options) (resolver : Resolver) (program : Source)
    (ops : List Operation) :
    let s := Scanner.start options resolver program
    let cleared := ∀ before op, before ++ [op] <+: ops → op.Crosses (afterAll before s) →
      (afterAll (before ++ [op]) s).saved = none
    let current := ∀ before, before <+: ops → ∀ t, (afterAll before s).saved = some t →
      Scan.getToken (afterAll before s) = .ok t { afterAll before s with saved := none } ∧
      ∃ earlier later, SavedBy s t before earlier later
    (cleared ↔ Never Carries s ops) ∧ (cleared ∧ current ↔ Never Strands s ops) := by
  intro s cleared current
  have hregistered : s.Registered := Scanner.registered_start options resolver program
  have hcleared : cleared ↔ Never Carries s ops := by
    refine forall_congr' fun before => forall_congr' fun op => imp_congr_right fun _ => ?_
    rw [afterAll_append]
    exact saved_eq_none_iff
  refine ⟨hcleared, ⟨fun ⟨_, hcurrent⟩ before op hwithin => ?_, fun hops => ⟨?_, ?_⟩⟩⟩
  · refine not_strands_of_savedBy fun t ht => (hcurrent (before ++ [op]) hwithin t ?_).2
    rw [afterAll_append]
    exact ht
  · exact hcleared.mpr fun before op hwithin hcarries => hops before op hwithin hcarries.strands
  · intro before hbefore t hpending
    exact ⟨Scan.getToken_of_saved hpending,
      savedBy_of_never_strands hregistered rfl (hops.mono hbefore) hpending⟩

/-! ### A token of an include file, stranded at the end of the program -/

/-- The program `X` includes a file of the one line `A`. Its token is
taken and saved, and the next fetch finds the file and then the program
exhausted. The token is pending still, and is the next to be taken. -/
theorem saved_stranded_at_end :
    ∃ s, s = afterAll [getLine, pushInclude "f", getLine, getToken,
        saveToken { kind := .identifier, text := "A", offset := 0 }]
        (Scanner.start {} (.ofTexts [("f", [65, 10])]) (.ofBytes [88, 10])) ∧
      s.stack.depth = 1 ∧ getLine.Crosses s ∧ (getLine.after s).stack.depth = 0 ∧
      (getLine.after s).saved = some { kind := .identifier, text := "A", offset := 0 } := by
  refine ⟨_, rfl, by cbv, .inr (by cbv), by cbv, by cbv⟩

/-- So it is where the fetch fails in the include file, and closes it. -/
example :
    let file := (Source.ofBytes [65, 10]).failingAt [1] [] .isADirectory
    let s := afterAll [getLine, pushInclude "f", getLine, getToken,
        saveToken { kind := .identifier, text := "A", offset := 0 }]
        (Scanner.start {} (.table [("f", file)]) (.ofBytes [88, 10]))
    s.stack.depth = 1 ∧ (getLine.after s).stack.depth = 0 ∧
      (getLine.after s).saved = some { kind := .identifier, text := "A", offset := 0 } :=
  ⟨by cbv, by cbv, by cbv⟩

end Operation

end BasicLexer
