import BasicLexer.Proofs.Client.Operations
import BasicLexer.Proofs.Reading.Orderly
import Mathlib

/-!
# Clients — columns are columns of the line

A head describes its line if neither its column nor that of the last token
lies beyond the end. Readers keep to their line, so it does so through
every operation but two. A fetch that fails loses the line and leaves the
columns as they were, and a token of another line that is not of the kind
required has its own column noted. `Operation.Disturbs` says when either
goes wrong, and it is exactly then that a head ceases to describe its line
(`Operation.describes_throughout_iff`).
-/

namespace BasicLexer

namespace Head

/-- A head describes its line if its columns are columns of it, the end
of the line included. -/
structure Describes (h : Head) : Prop where
  column_le : h.column ≤ h.lineLength
  tokenStart_le : h.tokenStart ≤ h.lineLength

/-- What every reader keeps: the column is that of the place reached, and
the last token begins within the line. -/
structure Settled (h : Head) : Prop where
  placed : h.Placed
  tokenStart_le : h.tokenStart ≤ h.lineLength

theorem Settled.describes {h : Head} (hsettled : h.Settled) : h.Describes :=
  ⟨hsettled.placed.column_le, hsettled.tokenStart_le⟩

theorem Settled.along {h h' : Head} (hsettled : h.Settled) (halong : h.Along h') : h'.Settled :=
  ⟨halong.placed hsettled.placed, halong.tokenStart hsettled.placed hsettled.tokenStart_le⟩

theorem settled_start (line : Bytes) (inComment : Bool) :
    Settled { ahead := line, inComment } :=
  ⟨rfl, Nat.zero_le _⟩

/-- A head that lost its line is settled only at its start. -/
theorem settled_lose {h : Head} (hcolumn : h.column = 0) (hstart : h.tokenStart = 0) :
    h.lose.Settled :=
  ⟨hcolumn, Nat.le_of_eq hstart⟩

end Head

namespace Scan

variable {α : Type} {s : Scanner}

/-- An orderly reader leaves a scanner settled. -/
theorem settled_reading {x : Reader α} (hx : x.Orderly) (hsettled : s.head.Settled) :
    (after (reading x) s).head.Settled := by
  have hleads := hx s.head
  simp only [after, reading]
  rcases hrun : x s.head with ⟨a, h⟩ | ⟨⟨cause⟩ | ⟨breach⟩, h⟩ <;> rw [hrun] at hleads
  · exact hsettled.along hleads
  · exact hsettled.along hleads
  · exact hleads.elim

theorem settled_pushBack (hsettled : s.head.Settled) :
    (after (reading Reader.pushBack) s).head.Settled := by
  simp only [after, reading, Reader.pushBack, Head.pushBack]
  by_cases hlast : s.head.lastRead = .pushedBack
  · simp only [hlast, if_true]
    exact hsettled
  · simp only [hlast, if_false]
    exact hsettled.along (Head.along_retract _)

theorem settled_getToken (hsettled : s.head.Settled) : (after getToken s).head.Settled := by
  cases hsaved : s.saved with
  | some token =>
    rw [after_of_ok (getToken_of_saved hsaved)]
    exact hsettled
  | none =>
    rw [after, getToken_of_unsaved hsaved]
    exact settled_reading (Lexeme.orderly_read _) hsettled

theorem head_after_saveToken (token : Token) (s : Scanner) :
    (after (saveToken token) s).head = s.head := by
  rw [after, saveToken]
  cases s.saved <;> rfl

theorem head_after_pushInclude (name : String) (s : Scanner) :
    (after (pushInclude name) s).head = s.head := by
  rw [after, pushInclude]
  rcases s.included.insert name with ⟨⟨entry, _ | _⟩, included⟩
  · rfl
  · dsimp only
    cases s.resolver.open? name <;> rfl

theorem head_after_rewind (s : Scanner) : (after rewind s).head = {} := by
  simp only [after, rewind]
  rcases Stack.rewind _ with ⟨_ | _, stack⟩ <;> rfl

end Scan

namespace Operation

variable {s : Scanner} {op : Operation}

/-- Whether an operation leaves a scanner with a column beyond its line: a
fetch fails with the head or the last token past the start of the line,
or a token that is not of the kind required begins beyond the end. -/
def Disturbs : Operation → Scanner → Prop
  | getLine, s =>
    (∃ fault, (s.stack.fetch s.options.maxLine).1 = .error fault) ∧
      (s.head.column ≠ 0 ∨ s.head.tokenStart ≠ 0)
  | requireToken token kind, s => token.kind ≠ kind ∧ s.head.lineLength < token.offset
  | _, _ => False

/-- No operation of a list disturbs the scanner it is performed on. -/
def Undisturbed (s : Scanner) : List Operation → Prop
  | [] => True
  | op :: ops => ¬ op.Disturbs s ∧ Undisturbed (op.after s) ops

/-- Where a fetch fails the line is lost and the columns stay. -/
theorem head_after_getLine_error {fault : Fault}
    (hfetch : (s.stack.fetch s.options.maxLine).1 = .error fault) :
    (Scan.after Scan.getLine s).head = s.head.lose := by
  simp only [Scan.after, Scan.getLine]
  rcases hrun : s.stack.fetch s.options.maxLine with ⟨found, stack⟩
  rw [hrun] at hfetch
  cases hfetch
  rfl

/-- Where it does not, the head is at the start of a line. -/
theorem head_after_getLine_ok {raw : Bytes}
    (hfetch : (s.stack.fetch s.options.maxLine).1 = .ok raw) :
    ∃ line, (Scan.after Scan.getLine s).head = s.head.load line := by
  simp only [Scan.after, Scan.getLine]
  rcases hrun : s.stack.fetch s.options.maxLine with ⟨found, stack⟩
  rw [hrun] at hfetch
  cases hfetch
  cases raw with
  | nil => exact ⟨[], rfl⟩
  | cons b rest => exact ⟨Scan.terminated (b :: rest), rfl⟩

theorem settled_getLine (hop : ¬ getLine.Disturbs s) :
    (Scan.after Scan.getLine s).head.Settled := by
  cases hfetch : (s.stack.fetch s.options.maxLine).1 with
  | error fault =>
    -- both columns are those of the line that was lost, so they must be zero
    have hstart : ¬ (s.head.column ≠ 0 ∨ s.head.tokenStart ≠ 0) :=
      fun hpast => hop ⟨⟨fault, hfetch⟩, hpast⟩
    rw [head_after_getLine_error hfetch]
    exact Head.settled_lose (by omega) (by omega)
  | ok raw =>
    obtain ⟨line, hhead⟩ := head_after_getLine_ok hfetch
    rw [hhead]
    exact Head.settled_start line s.head.inComment

theorem head_after_requireToken (token : Token) (kind : Kind) :
    (Scan.after (Scan.requireToken token kind) s).head =
      if token.kind = kind then s.head else { s.head with tokenStart := token.offset } := by
  simp only [Scan.after, Scan.requireToken]
  by_cases hkind : token.kind = kind
  · simp only [if_pos hkind]
  · simp only [if_neg hkind]
    rfl

theorem settled_requireToken {token : Token} {kind : Kind} (hsettled : s.head.Settled)
    (hop : ¬ (requireToken token kind).Disturbs s) :
    (Scan.after (Scan.requireToken token kind) s).head.Settled := by
  rw [head_after_requireToken]
  by_cases hkind : token.kind = kind
  · rw [if_pos hkind]
    exact hsettled
  · have hwithin : ¬ s.head.lineLength < token.offset := fun hpast => hop ⟨hkind, hpast⟩
    rw [if_neg hkind]
    exact ⟨hsettled.placed, Nat.le_of_not_lt hwithin⟩

/-- **What an operation leaves is settled** unless it disturbs. -/
theorem settled_after (hsettled : s.head.Settled) (hop : ¬ op.Disturbs s) :
    (op.after s).head.Settled := by
  cases op with
  | getLine =>
    rw [after, run, Scan.after_silent]
    exact settled_getLine hop
  | getToken =>
    rw [after, run, Scan.after_silent]
    exact Scan.settled_getToken hsettled
  | saveToken token =>
    rw [after, run, Scan.head_after_saveToken]
    exact hsettled
  | requireToken token kind =>
    rw [after, run, Scan.after_silent]
    exact settled_requireToken hsettled hop
  | nextChar =>
    rw [after, run, Scan.after_silent]
    exact Scan.settled_reading Reader.orderly_next hsettled
  | skipSpaces =>
    rw [after, run, Scan.after_silent]
    exact Scan.settled_reading Reader.orderly_skipBlanks hsettled
  | pushBack => exact Scan.settled_pushBack hsettled
  | pushInclude name =>
    rw [after, run, Scan.after_silent, Scan.head_after_pushInclude]
    exact hsettled
  | closeAll => exact hsettled
  | rewind =>
    rw [after, run, Scan.head_after_rewind]
    exact Head.settled_start [] false
  | fail message arguments => exact hsettled

/-- An operation that disturbs leaves a column beyond the line. -/
theorem not_describes_after (hop : op.Disturbs s) : ¬ (op.after s).head.Describes := by
  cases op with
  | getLine =>
    obtain ⟨⟨fault, hfetch⟩, hpast⟩ := hop
    rw [after, run, Scan.after_silent, head_after_getLine_error hfetch]
    rintro ⟨hcolumn, hstart⟩
    simp only [Head.lose, Head.lineLength, List.length_nil] at hcolumn hstart
    omega
  | requireToken token kind =>
    obtain ⟨hkind, hpast⟩ := hop
    rw [after, run, Scan.after_silent, head_after_requireToken, if_neg hkind]
    rintro ⟨-, hstart⟩
    simp only [Head.lineLength] at hstart hpast
    omega
  -- no other operation disturbs
  | getToken | saveToken | nextChar | skipSpaces | pushBack | pushInclude | closeAll | rewind
  | fail => exact hop.elim

/-! ## Runs -/

/-- A run that nothing disturbs leaves a scanner settled. -/
theorem settled_afterAll {ops : List Operation} (hsettled : s.head.Settled)
    (hops : Undisturbed s ops) : (afterAll ops s).head.Settled := by
  induction ops generalizing s with
  | nil => exact hsettled
  | cons op ops ih => exact ih (settled_after hsettled hops.1) hops.2

theorem undisturbed_append {ops more : List Operation} :
    Undisturbed s (ops ++ more) ↔ Undisturbed s ops ∧ Undisturbed (afterAll ops s) more := by
  induction ops generalizing s with
  | nil => exact ⟨fun hmore => ⟨trivial, hmore⟩, fun hboth => hboth.2⟩
  | cons op ops ih =>
    simp only [List.cons_append, Undisturbed, ih, and_assoc]
    rfl

/-- If the head describes its line throughout a run, nothing disturbed
it. -/
theorem undisturbed_of_describes {ops : List Operation}
    (hdescribes : ∀ before, before <+: ops → (afterAll before s).head.Describes) :
    Undisturbed s ops := by
  induction ops generalizing s with
  | nil => trivial
  | cons op ops ih =>
    refine ⟨fun hop => ?_, ih fun before hbefore => ?_⟩
    · exact not_describes_after hop (hdescribes [op] (by simp))
    · exact hdescribes (op :: before) (by simpa using hbefore)

end Operation

/-! ## Reports -/

namespace Scan

variable {α : Type}

/-- A computation reports in place if what it reports is of the line and
the column that it leaves the scanner at. -/
def ReportsInPlace (x : Scan α) : Prop :=
  ∀ s d failed, x s = .error (.reported d) failed →
    ∃ s' : Scanner, d.position = some s'.position ∧ failed.head = s'.head

theorem reportsInPlace_fail (cause : Cause) : ReportsInPlace (fail cause : Scan α) := by
  rintro s _ _ ⟨⟩
  exact ⟨s, rfl, rfl⟩

theorem reportsInPlace_reading (x : Reader α) : ReportsInPlace (reading x) := by
  intro s d failed hrun
  simp only [reading] at hrun
  rcases hread : x s.head with ⟨a, h⟩ | ⟨⟨cause⟩ | ⟨breach⟩, h⟩ <;> rw [hread] at hrun
  · cases hrun
  · exact reportsInPlace_fail cause _ d failed hrun
  · cases hrun

theorem reportsInPlace_getLine : ReportsInPlace getLine := by
  intro s d failed hrun
  simp only [getLine] at hrun
  split at hrun
  · exact reportsInPlace_fail _ _ d failed hrun
  · cases hrun
  · cases hrun

theorem reportsInPlace_getToken : ReportsInPlace getToken := by
  intro s d failed hrun
  simp only [getToken] at hrun
  split at hrun
  · cases hrun
  · exact reportsInPlace_reading _ s d failed hrun

theorem reportsInPlace_requireToken (token : Token) (kind : Kind) :
    ReportsInPlace (requireToken token kind) := by
  intro s d failed hrun
  simp only [requireToken] at hrun
  split at hrun
  · cases hrun
  · exact reportsInPlace_fail _ _ d failed hrun

theorem reportsInPlace_saveToken (token : Token) : ReportsInPlace (saveToken token) := by
  intro s d failed hrun
  simp only [saveToken] at hrun
  split at hrun <;> cases hrun

theorem reportsInPlace_pushInclude (name : String) : ReportsInPlace (pushInclude name) := by
  intro s d failed hrun
  simp only [pushInclude] at hrun
  split at hrun
  · cases hrun
  · split at hrun <;> cases hrun

theorem reportsInPlace_rewind : ReportsInPlace rewind := by
  intro s d failed hrun
  simp only [rewind] at hrun
  split at hrun
  · cases hrun
  · exact reportsInPlace_fail _ _ d failed hrun

theorem ReportsInPlace.silent {x : Scan α} (hx : x.ReportsInPlace) :
    (Scan.silent x).ReportsInPlace := by
  intro s d failed hrun
  rw [Scan.silent] at hrun
  cases hx' : x s with
  | ok a s' =>
    rw [bind_of_ok hx'] at hrun
    cases hrun
  | error failure s' =>
    rw [bind_of_error hx'] at hrun
    cases hrun
    exact hx s d failed hx'

end Scan

namespace Operation

/-- Every operation reports in place. -/
theorem reportsInPlace_run (op : Operation) : op.run.ReportsInPlace := by
  cases op with
  | getLine => exact Scan.reportsInPlace_getLine.silent
  | getToken => exact Scan.reportsInPlace_getToken.silent
  | saveToken token => exact Scan.reportsInPlace_saveToken token
  | requireToken token kind => exact (Scan.reportsInPlace_requireToken token kind).silent
  | nextChar => exact (Scan.reportsInPlace_reading _).silent
  | skipSpaces => exact (Scan.reportsInPlace_reading _).silent
  | pushBack => exact Scan.reportsInPlace_reading _
  | pushInclude name => exact (Scan.reportsInPlace_pushInclude name).silent
  | closeAll =>
    rintro s d failed hrun
    cases hrun
  | rewind => exact Scan.reportsInPlace_rewind
  | fail message arguments => exact Scan.reportsInPlace_fail _

variable {s : Scanner}

/-- Where a head describes its line, the column of the scanner's position
is within the text. -/
theorem position_within (hdescribes : s.head.Describes) :
    s.position.column ≤ s.position.text.length := by
  have hstart := hdescribes.tokenStart_le
  show s.head.tokenStart ≤ (Bytes.text s.head.line).length
  rwa [Bytes.length_text, Head.length_line]

/-- So is that of a report, if the operation does not disturb. -/
theorem report_within {op : Operation} {d : Diagnostic} {failed : Scanner}
    (hrun : op.run s = .error (.reported d) failed) (hdescribes : (op.after s).head.Describes) :
    ∃ p, d.position = some p ∧ p.column ≤ p.text.length := by
  obtain ⟨s', hposition, hhead⟩ := op.reportsInPlace_run s d failed hrun
  rw [after, Scan.after_of_error hrun, hhead] at hdescribes
  exact ⟨s'.position, hposition, position_within hdescribes⟩

/-- **Columns are columns of the line** throughout a run, over sources and
include files that may fail at any call, exactly if no operation of the
run disturbs; and then every position, of the scanner or of a report, is
within its text. -/
theorem describes_throughout_iff (options : Options) (resolver : Resolver) (program : Source)
    (ops : List Operation) :
    let s := Scanner.start options resolver program
    ((∀ before, before <+: ops → (afterAll before s).head.Describes) ↔ Undisturbed s ops) ∧
    (Undisturbed s ops →
      ∀ before, before <+: ops →
        (afterAll before s).position.column ≤ (afterAll before s).position.text.length ∧
        ∀ op d failed, before ++ [op] <+: ops →
          op.run (afterAll before s) = .error (.reported d) failed →
          ∃ p, d.position = some p ∧ p.column ≤ p.text.length) := by
  intro s
  have hsettled : s.head.Settled := Head.settled_start [] false
  have hdescribes : Undisturbed s ops →
      ∀ before, before <+: ops → (afterAll before s).head.Describes := by
    rintro hops before ⟨more, rfl⟩
    exact (settled_afterAll hsettled (undisturbed_append.mp hops).1).describes
  refine ⟨⟨undisturbed_of_describes, hdescribes⟩, fun hops before hbefore => ⟨?_, ?_⟩⟩
  · exact position_within (hdescribes hops before hbefore)
  · intro op d failed hnext hrun
    have hafter := hdescribes hops (before ++ [op]) hnext
    rw [afterAll_append] at hafter
    exact report_within hrun hafter

/-! ### A fetch that fails past the start of a line -/

/-- The program ` AB`, of one line; its second fetch fails. -/
def failingProgram : Source := (Source.ofBytes [32, 65, 66, 10]).failingAt [1] [] (.other "boom")

/-- A token is read off the line and the next line cannot be fetched. The
line is empty then, and the columns are not. -/
theorem not_describes_after_failing_fetch :
    ∃ ops s, s = afterAll ops (Scanner.start {} (.ofTexts []) failingProgram) ∧
      ¬ s.head.Describes ∧ s.position.text.length < s.position.column := by
  have hhead : (afterAll [getLine, getToken, getLine]
      (Scanner.start {} (.ofTexts []) failingProgram)).head =
      { column := 3, tokenStart := 1, lastRead := .pushedBack } := by cbv
  refine ⟨[getLine, getToken, getLine], _, rfl, ?_, ?_⟩
  · rw [hhead]
    rintro ⟨hcolumn, -⟩
    exact absurd hcolumn (by decide)
  · rw [Scanner.position, hhead]
    decide

end Operation

end BasicLexer
