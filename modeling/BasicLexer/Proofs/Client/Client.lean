import BasicLexer.Proofs.Client.Operations

/-!
# Clients — computations that go by the replies

A client acts on a scanner, sees the reply and where the scanner stands,
and goes on by what it saw; it runs passes of its own, and ends in a value
or a failure. Streams, actions and clients are all composed of operations
(`Client.composed_run`), so what every operation keeps, every client
keeps.
-/

namespace BasicLexer

/-- A computation with a scanner that goes by the replies it gets. A pass
that fails of a diagnostic does not fail its client, unless the client
has it so. -/
inductive Client : Type → Type 1 where
  | done {α : Type} (value : α) : Client α
  | abort {α : Type} (failure : Failure Diagnostic) : Client α
  | act {α : Type} (action : Action) (next : Reply → Standing → Client α) : Client α
  | pass {α β : Type} (body : Client β) (next : Except Diagnostic β → Client α) : Client α

namespace Scan

variable {α : Type}

/-- An action, for its reply and where it leaves the scanner. -/
def act (action : Action) : Scan (Reply × Standing) := fun s =>
  let step := Session.act { scanner := s } action
  .ok (step.1, step.2.scanner.standing) step.2.scanner

/-- A pass whose failure is a value. What it breaks of a contract is
broken still. -/
def attempt (x : Scan α) : Scan (Except Diagnostic α) := fun s =>
  match Scan.runPass x s with
  | .ok a s' => .ok (.ok a) s'
  | .error (.reported diagnostic) s' => .ok (.error diagnostic) s'
  | .error (.breach breach) s' => .error (.breach breach) s'

/-- A pass leaves the scanner where its client finds it again. -/
theorem after_attempt (x : Scan α) (s : Scanner) :
    after (attempt x) s = after (runPass x) s := by
  rw [after, after, attempt]
  rcases runPass x s with ⟨_, _⟩ | ⟨⟨_⟩ | ⟨_⟩, _⟩ <;> rfl

end Scan

namespace Client

/-- Run a client. -/
def run : {α : Type} → Client α → Scan α
  | _, done value => pure value
  | _, abort failure => throw failure
  | _, act action next => do
    let (reply, standing) ← Scan.act action
    run (next reply standing)
  | _, pass body next => do
    let result ← Scan.attempt (run body)
    run (next result)

end Client

/-! ## Streams -/

namespace Stream

open Operation

/-- A step of a stream is composed of operations. -/
theorem composed_takeToken (s : Scanner) : ∃ ops, (takeToken s).2.2 = afterAll ops s := by
  obtain ⟨ops, hops⟩ := Scan.composed_getToken s
  refine ⟨ops, ?_⟩
  rw [← hops, takeToken, Scan.after]
  cases Scan.getToken s <;> rfl

theorem composed_advance (stream : Stream) (s : Scanner) :
    ∃ ops, (advance stream s).2.2 = afterAll ops s := by
  unfold advance
  split
  · exact ⟨[], rfl⟩
  split
  · obtain ⟨ops, hops⟩ := Scan.composed_getLine s
    split
    · rename_i s' hline
      rw [Scan.after_of_ok hline] at hops
      obtain ⟨more, hmore⟩ := composed_takeToken s'
      exact ⟨ops ++ more, by rw [hmore, hops, afterAll_append]⟩
    · rename_i s' hline
      exact ⟨ops, by rw [← hops, Scan.after_of_ok hline]⟩
    · rename_i failure s' hline
      exact ⟨ops, by rw [← hops, Scan.after_of_error hline]⟩
  · exact composed_takeToken s

theorem composed_steps (count : Nat) (stream : Stream) (s : Scanner) :
    ∃ ops, (steps count stream s).2 = afterAll ops s := by
  induction count generalizing stream s with
  | zero => exact ⟨[], rfl⟩
  | succ count ih =>
    obtain ⟨ops, hops⟩ := composed_advance stream s
    obtain ⟨more, hmore⟩ := ih (advance stream s).2.1 (advance stream s).2.2
    exact ⟨ops ++ more, by rw [afterAll_append, ← hops, ← hmore]; rfl⟩

theorem composed_drainFrom (tokens : List Token) (stream : Stream) (s : Scanner) :
    ∃ ops, (drainFrom tokens stream s).2 = afterAll ops s := by
  fun_induction drainFrom tokens stream s with
  | case1 tokens stream s token stream' s' hstep ih =>
    obtain ⟨ops, hops⟩ := composed_advance stream s
    obtain ⟨more, hmore⟩ := ih
    rw [hstep] at hops
    exact ⟨ops ++ more, by rw [afterAll_append, ← hops, hmore]⟩
  | case2 tokens stream s failure stream' s' hstep =>
    obtain ⟨ops, hops⟩ := composed_advance stream s
    rw [hstep] at hops
    exact ⟨ops, hops⟩
  | case3 tokens stream s stream' s' hstep =>
    obtain ⟨ops, hops⟩ := composed_advance stream s
    rw [hstep] at hops
    exact ⟨ops, hops⟩

end Stream

namespace Scan

variable {α : Type}

theorem composed_scanAll : Composed scanAll := by
  intro s
  obtain ⟨ops, hops⟩ := Stream.composed_drainFrom [] {} s
  refine ⟨ops, ?_⟩
  rw [← hops, after, scanAll, Stream.drain]
  rcases Stream.drainFrom [] {} s with ⟨⟨tokens, _ | failure⟩, s'⟩ <;> rfl

end Scan

/-! ## Actions and clients -/

namespace Session

theorem scanner_perform {α : Type} (session : Session) (x : Scan α) (reply : α → Scanner → Reply) :
    (session.perform x reply).2.scanner = Scan.after x session.scanner := by
  rw [perform, Scan.after]
  cases x session.scanner <;> rfl

theorem composed_perform {α : Type} {x : Scan α} (hx : x.Composed) (session : Session)
    (reply : α → Scanner → Reply) :
    ∃ ops, (session.perform x reply).2.scanner = Operation.afterAll ops session.scanner := by
  rw [scanner_perform]
  exact hx session.scanner

/-- What an action does to a scanner is composed of operations. -/
theorem composed_act (session : Session) (action : Action) :
    ∃ ops, (session.act action).2.scanner = Operation.afterAll ops session.scanner := by
  cases action with
  | getLine => exact composed_perform Scan.composed_getLine session _
  | getToken register =>
    obtain ⟨ops, hops⟩ := Scan.composed_getToken session.scanner
    refine ⟨ops, ?_⟩
    rw [← hops, act, Scan.after]
    cases Scan.getToken session.scanner <;> rfl
  | saveToken ref =>
    rw [act]
    split
    · exact composed_perform (Scan.composed_saveToken _) session _
    · exact ⟨[], rfl⟩
  | requireToken ref kind =>
    rw [act]
    split
    · exact composed_perform (Scan.composed_requireToken _ kind) session _
    · exact ⟨[], rfl⟩
  | fetchAndRequire kind => exact composed_perform (Scan.composed_fetchAndRequire kind) session _
  | nextChar => exact composed_perform Scan.composed_next session _
  | nextChars count => exact composed_perform (Scan.composed_nextChars count) session _
  | skipSpaces => exact composed_perform Scan.composed_skipBlanks session _
  | pushBack => exact composed_perform Scan.composed_pushBack session _
  | pushInclude name => exact composed_perform (Scan.composed_pushInclude name) session _
  | closeAll => exact composed_perform Scan.composed_closeAll session _
  | rewind => exact composed_perform Scan.composed_rewind session _
  | fail message arguments =>
    exact composed_perform (Scan.composed_fail message arguments) session fun _ _ => .nothing
  | scanAll => exact composed_perform Scan.composed_scanAll session _
  | tokens count => exact Stream.composed_steps count {} session.scanner
  -- the rest only look
  | lineText | savedToken | includedFiles | position | options => exact ⟨[], rfl⟩

end Session

namespace Scan

variable {α : Type}

theorem composed_act (action : Action) : Composed (act action) :=
  fun s => Session.composed_act { scanner := s } action

theorem Composed.attempt {x : Scan α} (hx : x.Composed) : (Scan.attempt x).Composed := by
  intro s
  obtain ⟨ops, hops⟩ := hx.runPass s
  exact ⟨ops, (after_attempt x s).trans hops⟩

end Scan

/-- **Whatever a client does is composed of operations.** -/
theorem Client.composed_run {α : Type} (client : Client α) : client.run.Composed := by
  induction client with
  | done value => exact .pure value
  | abort failure => exact .throw failure
  | act action next ih => exact (Scan.composed_act action).bind fun found => ih found.1 found.2
  | pass body next ihbody ihnext => exact ihbody.attempt.bind ihnext

end BasicLexer
