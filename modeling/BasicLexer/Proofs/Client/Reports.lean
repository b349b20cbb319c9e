import BasicLexer.Proofs.Client.Client

/-!
# Clients — each failure is reported once

A failure is reported where it arises, and every include file is closed
then and there (`Scanner.Reported`). Whatever it passes through on its way
out, a required token, a stream or any number of passes, adds no report.
The events of a client's run (`Client.events`) say which diagnostic each
operation raised, so that the text sent out can be told from them alone
(`Client.reportText_run`).
-/

namespace BasicLexer

/-- The diagnostic a failure reports, if it reports one. -/
def Failure.diagnostic? : Failure Diagnostic → Option Diagnostic
  | reported diagnostic => some diagnostic
  | breach _ => none

/-- The diagnostic an item of a stream reports, if it reports one. -/
def Stream.Item.diagnostic? : Stream.Item → Option Diagnostic
  | failure f => f.diagnostic?
  | token _ | none => Option.none

/-- The diagnostics a reply reports, in the order they arose. -/
def Reply.diagnostics : Reply → List Diagnostic
  | failed failure => failure.diagnostic?.toList
  | items given => given.filterMap Stream.Item.diagnostic?
  | _ => []

/-! ## What a computation reports -/

/-- What a scanner sent out from one state to another is the text of
these diagnostics, and if there are any no include file is open. -/
structure Scanner.Reported (diagnostics : List Diagnostic) (s s' : Scanner) : Prop where
  reports : s'.reports = (diagnostics.map Diagnostic.render).reverse ++ s.reports
  includes : diagnostics ≠ [] → s'.stack.includes = []

namespace Scanner.Reported

variable {diagnostics : List Diagnostic} {s s' s'' : Scanner}

theorem quiet (hreports : s'.reports = s.reports) : Reported [] s s' :=
  ⟨hreports, fun hsome => absurd rfl hsome⟩

theorem after_quiet (hfirst : Reported [] s s') (hthen : Reported diagnostics s' s'') :
    Reported diagnostics s s'' where
  reports := by rw [hthen.reports, hfirst.reports]; rfl
  includes := hthen.includes

/-- The text that was sent out. -/
theorem sentSince (h : Reported diagnostics s s') :
    s'.sentSince s = String.join (diagnostics.map Diagnostic.render) := by
  have hlength : s'.reports.length - s.reports.length =
      (diagnostics.map Diagnostic.render).reverse.length := by
    rw [h.reports, List.length_append, Nat.add_sub_cancel]
  rw [Scanner.sentSince, hlength, h.reports, List.take_left, List.reverse_reverse]

end Scanner.Reported

namespace Scan

open Scanner

variable {α β : Type}

/-- The diagnostic a run failed of, if it failed of one. -/
def diagnostic? : EStateM.Result (Failure Diagnostic) Scanner α → Option Diagnostic
  | .ok _ _ => none
  | .error failure _ => failure.diagnostic?

/-- A computation reports what it fails of, once, and nothing else. -/
def ReportsOnce (x : Scan α) : Prop := ∀ s, Reported (diagnostic? (x s)).toList s (after x s)

theorem ReportsOnce.pure (a : α) : ReportsOnce (Pure.pure a : Scan α) := fun _ => .quiet rfl

theorem ReportsOnce.bind {x : Scan α} {f : α → Scan β} (hx : x.ReportsOnce)
    (hf : ∀ a, (f a).ReportsOnce) : (x >>= f).ReportsOnce := by
  intro s
  have hfirst := hx s
  cases hrun : x s with
  | ok a s' =>
    rw [hrun, after_of_ok hrun] at hfirst
    rw [after, bind_of_ok hrun]
    exact hfirst.after_quiet (hf a s')
  | error failure s' =>
    -- the second part is not run, and adds nothing to what the first reported
    rw [hrun, after_of_error hrun] at hfirst
    rw [after, bind_of_error hrun]
    exact hfirst

/-- A failure is reported, from wherever nothing was reported since. -/
theorem reported_fail (cause : Cause) {s : Scanner} (s' : Scanner)
    (hreports : s'.reports = s.reports) :
    Reported (diagnostic? (fail cause s' : EStateM.Result _ _ α)).toList s
      (after (fail cause : Scan α) s') :=
  ⟨congrArg _ hreports, fun _ => rfl⟩

theorem reportsOnce_fail (cause : Cause) : ReportsOnce (fail cause : Scan α) :=
  fun s => reported_fail cause s rfl

theorem reportsOnce_reading (x : Reader α) : ReportsOnce (reading x) := by
  intro s
  rw [after, reading]
  rcases x s.head with ⟨a, head⟩ | ⟨⟨cause⟩ | ⟨breach⟩, head⟩
  · exact .quiet rfl
  · exact reported_fail cause { s with head } rfl
  · exact .quiet rfl

theorem reportsOnce_getLine : ReportsOnce getLine := by
  intro s
  rw [after, getLine]
  rcases s.stack.fetch s.options.maxLine with ⟨fault | ⟨_ | ⟨b, line⟩⟩, stack⟩
  · exact reported_fail _ { s with stack, head := s.head.lose } rfl
  · exact .quiet rfl
  · exact .quiet rfl

theorem reportsOnce_getToken : ReportsOnce getToken := by
  intro s
  rw [after, getToken]
  cases s.saved with
  | some token => exact .quiet rfl
  | none => exact reportsOnce_reading _ s

theorem reportsOnce_saveToken (token : Token) : ReportsOnce (saveToken token) := by
  intro s
  rw [after, saveToken]
  cases s.saved <;> exact .quiet rfl

theorem reportsOnce_requireToken (token : Token) (kind : Kind) :
    ReportsOnce (requireToken token kind) := by
  intro s
  rw [after, requireToken]
  by_cases hkind : token.kind = kind
  · rw [if_pos hkind]
    exact .quiet rfl
  · rw [if_neg hkind]
    exact reported_fail _ { s with head := { s.head with tokenStart := token.offset } } rfl

theorem reportsOnce_fetchAndRequire (kind : Kind) : ReportsOnce (fetchAndRequire kind) :=
  reportsOnce_getToken.bind fun token => reportsOnce_requireToken token kind

theorem reportsOnce_nextChars (count : Nat) : ReportsOnce (nextChars count) := by
  induction count with
  | zero => exact .pure []
  | succ count ih => exact (reportsOnce_reading _).bind fun _ => ih.bind fun _ => .pure _

theorem reportsOnce_pushInclude (name : String) : ReportsOnce (pushInclude name) := by
  intro s
  rw [after, pushInclude]
  rcases s.included.insert name with ⟨⟨entry, _ | _⟩, included⟩
  · exact .quiet rfl
  · dsimp only
    cases s.resolver.open? name <;> exact .quiet rfl

theorem reportsOnce_closeAll : ReportsOnce closeAll := fun _ => .quiet rfl

theorem reportsOnce_rewind : ReportsOnce rewind := by
  intro s
  rw [after, rewind]
  rcases Stack.rewind _ with ⟨fault | _, stack⟩
  · exact reported_fail _
      { s.closeAll with included := .empty, head := {}, saved := none, stack } rfl
  · exact .quiet rfl

end Scan

/-! ## Streams -/

namespace Stream

open Scanner

/-- An item that reports ends its stream. -/
theorem reported_takeToken (s : Scanner) :
    Reported (takeToken s).1.diagnostic?.toList s (takeToken s).2.2 ∧
      ((takeToken s).1.diagnostic? ≠ none → (takeToken s).2.1.ended = true) := by
  have honce := Scan.reportsOnce_getToken s
  rw [takeToken]
  cases hrun : Scan.getToken s with
  | ok token s' =>
    rw [hrun, Scan.after_of_ok hrun] at honce
    exact ⟨honce, fun hsome => absurd rfl hsome⟩
  | error failure s' =>
    rw [hrun, Scan.after_of_error hrun] at honce
    exact ⟨honce, fun _ => rfl⟩

theorem reported_advance (stream : Stream) (s : Scanner) :
    Reported (advance stream s).1.diagnostic?.toList s (advance stream s).2.2 ∧
      ((advance stream s).1.diagnostic? ≠ none → (advance stream s).2.1.ended = true) := by
  rw [advance]
  by_cases hended : stream.ended = true
  · rw [if_pos hended]
    exact ⟨.quiet rfl, fun _ => hended⟩
  rw [if_neg hended]
  by_cases hneeds : stream.needsLine = true
  · rw [if_pos hneeds]
    have honce := Scan.reportsOnce_getLine s
    cases hline : Scan.getLine s with
    | error failure s' =>
      rw [hline, Scan.after_of_error hline] at honce
      exact ⟨honce, fun _ => rfl⟩
    | ok found s' =>
      rw [hline, Scan.after_of_ok hline] at honce
      cases found with
      | false => exact ⟨honce, fun _ => rfl⟩
      | true =>
        obtain ⟨hreported, hends⟩ := reported_takeToken s'
        exact ⟨honce.after_quiet hreported, hends⟩
  · rw [if_neg hneeds]
    exact reported_takeToken s

/-- A stream that has ended gives nothing and does nothing. -/
theorem steps_of_ended {stream : Stream} (hended : stream.ended = true) (count : Nat)
    (s : Scanner) : steps count stream s = (List.replicate count .none, s) := by
  induction count with
  | zero => rfl
  | succ count ih =>
    have hstep : advance stream s = (.none, stream, s) := by rw [advance, if_pos hended]
    simp only [steps, hstep, ih, List.replicate_succ]

theorem reported_steps (count : Nat) (stream : Stream) (s : Scanner) :
    Reported ((steps count stream s).1.filterMap Item.diagnostic?) s
      (steps count stream s).2 := by
  induction count generalizing stream s with
  | zero => exact .quiet rfl
  | succ count ih =>
    obtain ⟨hfirst, hends⟩ := reported_advance stream s
    simp only [steps]
    cases hitem : (advance stream s).1.diagnostic? with
    | none =>
      rw [hitem] at hfirst
      rw [List.filterMap_cons_none hitem]
      exact hfirst.after_quiet (ih _ _)
    | some d =>
      -- what comes after the failure is nothing
      have hended := hends (by rw [hitem]; exact Option.some_ne_none d)
      rw [hitem] at hfirst
      have hnone : (List.replicate count Item.none).filterMap Item.diagnostic? = [] :=
        List.filterMap_replicate_of_none rfl
      rw [steps_of_ended hended, List.filterMap_cons_some hitem, hnone]
      exact hfirst

theorem reported_drainFrom (tokens : List Token) (stream : Stream) (s : Scanner) :
    Reported ((drainFrom tokens stream s).1.2.bind Failure.diagnostic?).toList s
      (drainFrom tokens stream s).2 := by
  fun_induction drainFrom tokens stream s with
  | case1 tokens stream s token stream' s' hstep ih =>
    have hfirst := (reported_advance stream s).1
    rw [hstep] at hfirst
    exact hfirst.after_quiet ih
  | case2 tokens stream s failure stream' s' hstep =>
    have hfirst := (reported_advance stream s).1
    rw [hstep] at hfirst
    exact hfirst
  | case3 tokens stream s stream' s' hstep =>
    have hfirst := (reported_advance stream s).1
    rw [hstep] at hfirst
    exact hfirst

end Stream

theorem Scan.reportsOnce_scanAll : Scan.ReportsOnce Scan.scanAll := by
  intro s
  have hdrained := Stream.reported_drainFrom [] {} s
  rw [after, scanAll, Stream.drain]
  rcases hrun : Stream.drainFrom [] {} s with ⟨⟨tokens, _ | failure⟩, s'⟩ <;>
    rw [hrun] at hdrained <;> exact hdrained

/-! ## Actions -/

namespace Session

open Scanner

theorem reported_perform {α : Type} {x : Scan α} (hx : x.ReportsOnce) (session : Session)
    (reply : α → Scanner → Reply) (hreply : ∀ a s, (reply a s).diagnostics = []) :
    Reported (session.perform x reply).1.diagnostics session.scanner
      (session.perform x reply).2.scanner := by
  have honce := hx session.scanner
  rw [perform]
  cases hrun : x session.scanner with
  | ok a s' =>
    rw [hrun, Scan.after_of_ok hrun] at honce
    rw [hreply]
    exact honce
  | error failure s' =>
    rw [hrun, Scan.after_of_error hrun] at honce
    exact honce

/-- **An action reports what its reply says it failed of**, and nothing
if it succeeds. -/
theorem reported_act (session : Session) (action : Action) :
    Reported (session.act action).1.diagnostics session.scanner
      (session.act action).2.scanner := by
  cases action with
  | getLine =>
    refine reported_perform Scan.reportsOnce_getLine session _ fun found s => ?_
    cases found <;> rfl
  | getToken register =>
    have honce := Scan.reportsOnce_getToken session.scanner
    rw [act]
    cases hrun : Scan.getToken session.scanner with
    | ok token s' =>
      rw [hrun, Scan.after_of_ok hrun] at honce
      exact honce
    | error failure s' =>
      rw [hrun, Scan.after_of_error hrun] at honce
      exact honce
  | saveToken ref =>
    rw [act]
    split
    · exact reported_perform (Scan.reportsOnce_saveToken _) session _ fun _ _ => rfl
    · exact .quiet rfl
  | requireToken ref kind =>
    rw [act]
    split
    · exact reported_perform (Scan.reportsOnce_requireToken _ kind) session _ fun _ _ => rfl
    · exact .quiet rfl
  | fetchAndRequire kind =>
    exact reported_perform (Scan.reportsOnce_fetchAndRequire kind) session _ fun _ _ => rfl
  | nextChar => exact reported_perform (Scan.reportsOnce_reading _) session _ fun _ _ => rfl
  | nextChars count =>
    exact reported_perform (Scan.reportsOnce_nextChars count) session _ fun _ _ => rfl
  | skipSpaces => exact reported_perform (Scan.reportsOnce_reading _) session _ fun _ _ => rfl
  | pushBack => exact reported_perform (Scan.reportsOnce_reading _) session _ fun _ _ => rfl
  | pushInclude name =>
    exact reported_perform (Scan.reportsOnce_pushInclude name) session _ fun _ _ => rfl
  | closeAll => exact reported_perform Scan.reportsOnce_closeAll session _ fun _ _ => rfl
  | rewind => exact reported_perform Scan.reportsOnce_rewind session _ fun _ _ => rfl
  | fail message arguments =>
    have hfail : Scan.ReportsOnce (Scan.fail (.stated message arguments) : Scan Unit) :=
      Scan.reportsOnce_fail _
    exact reported_perform hfail session (fun _ _ => .nothing) fun _ _ => rfl
  | scanAll => exact reported_perform Scan.reportsOnce_scanAll session _ fun _ _ => rfl
  | tokens count => exact Stream.reported_steps count {} session.scanner
  -- the rest only look
  | lineText | savedToken | includedFiles | position | options => exact .quiet rfl

end Session

/-! ## The events of a run -/

/-- What happens to a scanner as a client runs: an action, the beginning
of a pass, or its end. Each says where it found the scanner and where it
left it. -/
inductive Event where
  | acted (action : Action) (reply : Reply) (before after : Scanner)
  /-- A pass began, or failed to begin. -/
  | begun (failed : Option Diagnostic) (before after : Scanner)
  /-- A pass that had begun ended, and passed on what its body failed of
  if that failed. -/
  | ended (failed : Option Diagnostic) (before after : Scanner)

namespace Event

/-- Where an event found the scanner. -/
def before : Event → Scanner
  | acted _ _ before _ | begun _ before _ | ended _ before _ => before

/-- Where an event left the scanner. -/
def after : Event → Scanner
  | acted _ _ _ after | begun _ _ after | ended _ _ after => after

/-- The diagnostics a client was given at an event. -/
def returned : Event → List Diagnostic
  | acted _ reply _ _ => reply.diagnostics
  | begun failed _ _ | ended failed _ _ => failed.toList

/-- The diagnostics that arose at an event. A pass that ends raises none:
what it fails of arose within. -/
def raised : Event → List Diagnostic
  | ended _ _ _ => []
  | event => event.returned

/-- Where the client is given nothing, nothing arose. -/
theorem raised_eq_nil {event : Event} (hreturned : event.returned = []) :
    event.raised = [] := by
  cases event with
  | acted | begun => exact hreturned
  | ended => rfl

/-- The event is what the scanner does. -/
def Occurs : Event → Prop
  | acted action reply before after =>
    ((Session.act { scanner := before } action).1,
      (Session.act { scanner := before } action).2.scanner) = (reply, after)
  | begun failed before after =>
    (Scan.diagnostic? (Scan.rewind before), Scan.after Scan.rewind before) = (failed, after)
  | ended failed before after => after = if failed.isSome then before.closeAll else before

/-- **One event**: what is sent out at it is the text of what arose at
it, and where it gives the client a diagnostic no include file is open. -/
theorem Occurs.reported {event : Event} (hoccurs : event.Occurs) :
    Scanner.Reported event.raised event.before event.after ∧
      (event.returned ≠ [] → event.after.stack.includes = []) := by
  cases event with
  | acted action reply before after =>
    obtain ⟨rfl, rfl⟩ := Prod.mk.inj hoccurs
    have hact := Session.reported_act { scanner := before } action
    exact ⟨hact, hact.includes⟩
  | begun failed before after =>
    obtain ⟨rfl, rfl⟩ := Prod.mk.inj hoccurs
    have hrewind := Scan.reportsOnce_rewind before
    exact ⟨hrewind, hrewind.includes⟩
  | ended failed before after =>
    cases failed with
    | none =>
      cases hoccurs
      exact ⟨.quiet rfl, fun hsome => absurd rfl hsome⟩
    | some d =>
      cases hoccurs
      exact ⟨.quiet rfl, fun _ => rfl⟩

/-- Events lead from one state of a scanner to another: each occurs, and
where the one before it left the scanner. -/
def Leads : Scanner → List Event → Scanner → Prop
  | s, [], s' => s = s'
  | s, event :: events, s' => event.before = s ∧ event.Occurs ∧ Leads event.after events s'

theorem Leads.append {s s' s'' : Scanner} {events more : List Event}
    (hfirst : Leads s events s') (hthen : Leads s' more s'') : Leads s (events ++ more) s'' := by
  induction events generalizing s with
  | nil =>
    cases hfirst
    exact hthen
  | cons event events ih => exact ⟨hfirst.1, hfirst.2.1, ih hfirst.2.2⟩

theorem Leads.occurs {s s' : Scanner} {events : List Event} (hleads : Leads s events s') :
    ∀ event ∈ events, event.Occurs := by
  induction events generalizing s with
  | nil => exact fun _ hmem => absurd hmem List.not_mem_nil
  | cons event events ih =>
    rintro e (_ | ⟨_, hmem⟩)
    · exact hleads.2.1
    · exact ih hleads.2.2 e hmem

/-- What is sent out over a run is the text of all that arose, in
order. -/
theorem Leads.reports {s s' : Scanner} {events : List Event} (hleads : Leads s events s') :
    s'.reports = ((events.flatMap raised).map Diagnostic.render).reverse ++ s.reports := by
  induction events generalizing s with
  | nil =>
    cases hleads
    rfl
  | cons event events ih =>
    obtain ⟨rfl, hoccurs, hrest⟩ := hleads
    rw [ih hrest, hoccurs.reported.1.reports, List.flatMap_cons, List.map_append,
      List.reverse_append, List.append_assoc]

end Event

namespace Client

open Event

/-- The events of a client's run, in order. -/
def events : {α : Type} → Client α → Scanner → List Event
  | _, done _, _ => []
  | _, abort _, _ => []
  | _, act action next, s =>
    let step := Session.act { scanner := s } action
    acted action step.1 s step.2.scanner ::
      events (next step.1 step.2.scanner.standing) step.2.scanner
  | _, pass body next, s =>
    let begins := begun (Scan.diagnostic? (Scan.rewind s)) s (Scan.after Scan.rewind s)
    let within := match Scan.rewind s with
      | .ok _ s₁ =>
        events body s₁ ++ [ended (Scan.diagnostic? (body.run s₁)) (Scan.after body.run s₁)
          (Scan.after (Scan.closing body.run) s₁)]
      | .error _ _ => []
    let afterwards := match Scan.attempt body.run s with
      | .ok result s' => events (next result) s'
      | .error _ _ => []
    begins :: (within ++ afterwards)

variable {α : Type}

/-- The end of a pass occurs. -/
theorem occurs_ended (x : Scan α) (s : Scanner) :
    (ended (Scan.diagnostic? (x s)) (Scan.after x s) (Scan.after (Scan.closing x) s)).Occurs := by
  simp only [Occurs, Scan.after, Scan.closing]
  rcases x s with ⟨_, _⟩ | ⟨⟨_⟩ | ⟨_⟩, _⟩ <;> rfl

/-- **The events are those of the run**: they lead from where it starts
to where it ends. -/
theorem leads_events (client : Client α) (s : Scanner) :
    Leads s (client.events s) (Scan.after client.run s) := by
  induction client generalizing s with
  | done value => rfl
  | abort failure => rfl
  | act action next ih => exact ⟨rfl, rfl, ih _ _ _⟩
  | pass body next ihbody ihnext =>
    rw [events]
    refine ⟨rfl, rfl, ?_⟩
    have hpass : Leads (Scan.after Scan.rewind s) (match Scan.rewind s with
        | .ok _ s₁ => events body s₁ ++ [ended (Scan.diagnostic? (body.run s₁))
            (Scan.after body.run s₁) (Scan.after (Scan.closing body.run) s₁)]
        | .error _ _ => []) (Scan.after (Scan.attempt body.run) s) := by
      rw [Scan.after_attempt]
      cases hbegin : Scan.rewind s with
      | ok u s₁ =>
        rw [Scan.after_of_ok hbegin]
        have hends : Scan.after (Scan.runPass body.run) s =
            Scan.after (Scan.closing body.run) s₁ := by
          rw [Scan.after, Scan.runPass, bind_of_ok hbegin, Scan.after]
        rw [hends]
        exact (ihbody s₁).append ⟨rfl, occurs_ended body.run s₁, rfl⟩
      | error failure s₁ =>
        rw [Scan.after_of_error hbegin]
        have hends : Scan.after (Scan.runPass body.run) s = s₁ := by
          rw [Scan.after, Scan.runPass, bind_of_error hbegin]
        exact hends.symm
    refine hpass.append ?_
    -- what the client does next, if it goes on at all
    rw [Client.run]
    cases hrun : Scan.attempt body.run s with
    | ok result s' =>
      rw [Scan.after_of_ok hrun, Scan.after, bind_of_ok hrun]
      exact ihnext result s'
    | error failure s' =>
      rw [Scan.after_of_error hrun, Scan.after, bind_of_error hrun]
      rfl

/-- **Each failure is reported once**, over sources and include files
that may fail at any call. What a client's run sends out is the text of
the diagnostics that arose, in order, whatever passes they went through;
at each event it is the text of those that arose at it, and nothing where
the client is given none; and where an event gives the client a
diagnostic, no include file is open. -/
theorem reportText_run (options : Options) (resolver : Resolver) (program : Source)
    (client : Client α) :
    let s := Scanner.start options resolver program
    let events := client.events s
    Leads s events (Scan.after client.run s) ∧
    (Scan.after client.run s).reportText =
      String.join ((events.flatMap raised).map Diagnostic.render) ∧
    ∀ event ∈ events,
      event.after.sentSince event.before = String.join (event.raised.map Diagnostic.render) ∧
      (event.returned = [] → event.after.sentSince event.before = "") ∧
      (event.returned ≠ [] →
        event.after.stack.depth = 0 ∧ event.after.stack.includes = []) := by
  intro s events
  have hleads := client.leads_events s
  refine ⟨hleads, ?_, fun event hevent => ?_⟩
  · rw [Scanner.reportText, hleads.reports, List.reverse_append, List.reverse_reverse]
    rfl
  · obtain ⟨hreported, hincludes⟩ := (hleads.occurs event hevent).reported
    refine ⟨hreported.sentSince, fun hreturned => ?_, fun hreturned => ?_⟩
    · rw [hreported.sentSince, raised_eq_nil hreturned]
      rfl
    · have hnone := hincludes hreturned
      exact ⟨by rw [Stack.depth, hnone]; rfl, hnone⟩

end Client

end BasicLexer
