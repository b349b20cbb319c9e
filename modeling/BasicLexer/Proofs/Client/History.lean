import BasicLexer.Proofs.Client.Alike
import BasicLexer.Proofs.Client.Origin

/-!
# Clients — passes are independent of history

A pass starts over: whatever a client did to a scanner before, a scanner
that is rewound is alike a new one that is (`Scanner.alike_rewound`). As no
client can tell alike scanners apart, a pass gives what it would give on a
new scanner and sends the same reports
(`Client.runPass_independent_of_history`).
-/

namespace BasicLexer

open Scanner

/-! ## Streams do not tell -/

namespace Stream

variable {old₁ old₂ : List String} {s₁ s₂ : Scanner}

/-- Two steps of a stream are the same if they give the same item and leave
alike scanners. -/
def SameStep (old₁ old₂ : List String) (step₁ step₂ : Item × Stream × Scanner) : Prop :=
  ∃ item stream s₁ s₂, step₁ = (item, stream, s₁) ∧ step₂ = (item, stream, s₂) ∧
    Alike old₁ old₂ s₁ s₂

theorem sameStep_takeToken (halike : Alike old₁ old₂ s₁ s₂) :
    SameStep old₁ old₂ (takeToken s₁) (takeToken s₂) := by
  rw [takeToken, takeToken]
  rcases (Scan.agrees_getToken halike).cases with
    ⟨t, _, _, hrun₁, hrun₂, hafter⟩ | ⟨e, _, _, hrun₁, hrun₂, hafter⟩
  · rw [hrun₁, hrun₂]
    exact ⟨_, _, _, _, rfl, rfl, hafter⟩
  · rw [hrun₁, hrun₂]
    exact ⟨_, _, _, _, rfl, rfl, hafter⟩

theorem sameStep_advance (stream : Stream) (halike : Alike old₁ old₂ s₁ s₂) :
    SameStep old₁ old₂ (advance stream s₁) (advance stream s₂) := by
  rw [advance, advance]
  split
  · exact ⟨_, _, _, _, rfl, rfl, halike⟩
  split
  · rcases (Scan.agrees_getLine halike).cases with
      ⟨found, _, _, hrun₁, hrun₂, hafter⟩ | ⟨e, _, _, hrun₁, hrun₂, hafter⟩
    · rw [hrun₁, hrun₂]
      cases found with
      | true => exact sameStep_takeToken hafter
      | false => exact ⟨_, _, _, _, rfl, rfl, hafter⟩
    · rw [hrun₁, hrun₂]
      exact ⟨_, _, _, _, rfl, rfl, hafter⟩
  · exact sameStep_takeToken halike

theorem alike_steps (count : Nat) (stream : Stream) (halike : Alike old₁ old₂ s₁ s₂) :
    (steps count stream s₁).1 = (steps count stream s₂).1 ∧
      Alike old₁ old₂ (steps count stream s₁).2 (steps count stream s₂).2 := by
  induction count generalizing stream s₁ s₂ with
  | zero => exact ⟨rfl, halike⟩
  | succ count ih =>
    obtain ⟨item, stream', _, _, hstep₁, hstep₂, hafter⟩ := sameStep_advance stream halike
    obtain ⟨hrest, hend⟩ := ih stream' hafter
    simp only [steps, hstep₁, hstep₂]
    exact ⟨congrArg (item :: ·) hrest, hend⟩

theorem alike_drainFrom (tokens : List Token) (stream : Stream) (halike : Alike old₁ old₂ s₁ s₂) :
    ∃ found s₁' s₂', drainFrom tokens stream s₁ = (found, s₁') ∧
      drainFrom tokens stream s₂ = (found, s₂') ∧ Alike old₁ old₂ s₁' s₂' := by
  obtain ⟨item, stream₂, s₁', s₂', hstep₁, hstep₂, hafter⟩ := sameStep_advance stream halike
  -- the induction is on the one drain; the other is unfolded a step at a time
  rw [drainFrom_eq tokens stream s₂, hstep₂]
  fun_induction drainFrom tokens stream s₁ generalizing item stream₂ s₁' s₂ s₂' with
  | case1 tokens stream s₁ token stream' s₁'' hstep ih =>
    rw [hstep] at hstep₁
    cases hstep₁
    obtain ⟨item, stream₂, _, _, hnext₁, hnext₂, hlater⟩ := sameStep_advance stream' hafter
    dsimp only
    rw [drainFrom_eq (token :: tokens) stream' s₂', hnext₂]
    exact ih hafter _ _ _ _ hnext₁ hnext₂ hlater
  | case2 tokens stream s₁ failure stream' s₁'' hstep =>
    rw [hstep] at hstep₁
    cases hstep₁
    exact ⟨_, _, _, rfl, rfl, hafter⟩
  | case3 tokens stream s₁ stream' s₁'' hstep =>
    rw [hstep] at hstep₁
    cases hstep₁
    exact ⟨_, _, _, rfl, rfl, hafter⟩

end Stream

namespace Scan

theorem agrees_scanAll : Agrees scanAll := by
  intro old₁ old₂ s₁ s₂ halike
  obtain ⟨⟨tokens, failure⟩, _, _, hdrain₁, hdrain₂, hafter⟩ :=
    Stream.alike_drainFrom [] {} halike
  rw [scanAll, scanAll, Stream.drain, Stream.drain, hdrain₁, hdrain₂]
  cases failure <;> exact ⟨rfl, hafter⟩

end Scan

/-! ## Clients do not tell -/

namespace Session

variable {α : Type} {old₁ old₂ : List String} {s₁ s₂ : Scanner}

/-- Two steps of a session are the same if they give the same reply and
leave alike scanners. -/
def SameStep (old₁ old₂ : List String) (step₁ step₂ : Reply × Session) : Prop :=
  step₁.1 = step₂.1 ∧ Scanner.Alike old₁ old₂ step₁.2.scanner step₂.2.scanner

theorem sameStep_perform {x : Scan α} (hx : x.Agrees) (halike : Scanner.Alike old₁ old₂ s₁ s₂)
    (reply : α → Scanner → Reply)
    (hreply : ∀ a s₁ s₂, Scanner.Alike old₁ old₂ s₁ s₂ → reply a s₁ = reply a s₂) :
    SameStep old₁ old₂ (perform { scanner := s₁ } x reply) (perform { scanner := s₂ } x reply) := by
  rw [perform, perform]
  rcases (hx halike).cases with ⟨a, _, _, hrun₁, hrun₂, hafter⟩ | ⟨e, _, _, hrun₁, hrun₂, hafter⟩
  · rw [hrun₁, hrun₂]
    exact ⟨hreply _ _ _ hafter, hafter⟩
  · rw [hrun₁, hrun₂]
    exact ⟨rfl, hafter⟩

theorem sameStep_act (action : Action) (halike : Scanner.Alike old₁ old₂ s₁ s₂) :
    SameStep old₁ old₂ (act { scanner := s₁ } action) (act { scanner := s₂ } action) := by
  cases action with
  | getLine =>
    refine sameStep_perform Scan.agrees_getLine halike _ fun found s₁ s₂ hafter => ?_
    rw [hafter.head]
  | lineText => exact ⟨by rw [act, act, halike.head], halike⟩
  | getToken register =>
    rw [act, act]
    rcases (Scan.agrees_getToken halike).cases with
      ⟨t, _, _, hrun₁, hrun₂, hafter⟩ | ⟨e, _, _, hrun₁, hrun₂, hafter⟩
    · rw [hrun₁, hrun₂]
      exact ⟨rfl, hafter⟩
    · rw [hrun₁, hrun₂]
      exact ⟨rfl, hafter⟩
  | saveToken ref =>
    cases ref with
    | register name => exact ⟨rfl, halike⟩
    | literal token =>
      exact sameStep_perform (Scan.agrees_saveToken token) halike _ fun _ _ _ _ => rfl
  | savedToken => exact ⟨by rw [act, act, halike.saved], halike⟩
  | requireToken ref kind =>
    cases ref with
    | register name => exact ⟨rfl, halike⟩
    | literal token =>
      exact sameStep_perform (Scan.agrees_requireToken token kind) halike _ fun _ _ _ _ => rfl
  | fetchAndRequire kind =>
    exact sameStep_perform (Scan.agrees_fetchAndRequire kind) halike _ fun _ _ _ _ => rfl
  | nextChar => exact sameStep_perform (Scan.agrees_reading _) halike _ fun _ _ _ _ => rfl
  | nextChars count =>
    exact sameStep_perform (Scan.agrees_nextChars count) halike _ fun _ _ _ _ => rfl
  | skipSpaces => exact sameStep_perform (Scan.agrees_reading _) halike _ fun _ _ _ _ => rfl
  | pushBack => exact sameStep_perform (Scan.agrees_reading _) halike _ fun _ _ _ _ => rfl
  | pushInclude name =>
    exact sameStep_perform (Scan.agrees_pushInclude name) halike _ fun _ _ _ _ => rfl
  | includedFiles =>
    have hfiles := halike.view Scanner.includedFiles fun _ _ _ _ => rfl
    exact ⟨by rw [act, act, hfiles], halike⟩
  | closeAll => exact sameStep_perform Scan.agrees_closeAll halike _ fun _ _ _ _ => rfl
  | rewind => exact sameStep_perform Scan.agrees_rewind halike _ fun _ _ _ _ => rfl
  | position => exact ⟨by rw [act, act, halike.position], halike⟩
  | options => exact ⟨by rw [act, act, halike.options], halike⟩
  | fail message arguments =>
    have hfail : Scan.Agrees (Scan.fail (.stated message arguments) : Scan Unit) :=
      Scan.agrees_fail _
    exact sameStep_perform hfail halike (fun _ _ => .nothing) fun _ _ _ _ => rfl
  | scanAll => exact sameStep_perform Scan.agrees_scanAll halike _ fun _ _ _ _ => rfl
  | tokens count =>
    obtain ⟨hitems, hafter⟩ := Stream.alike_steps count {} halike
    exact ⟨congrArg Reply.items hitems, hafter⟩

end Session

namespace Scan

theorem agrees_act (action : Action) : Agrees (act action) := by
  intro old₁ old₂ s₁ s₂ halike
  obtain ⟨hreply, hafter⟩ := Session.sameStep_act action halike
  exact ⟨Prod.ext hreply hafter.standing.symm, hafter⟩

end Scan

namespace Client

/-- **No client can tell alike scanners apart.** -/
theorem agrees_run {α : Type} (client : Client α) : client.run.Agrees := by
  induction client with
  | done value => exact .pure value
  | abort failure => exact .throw failure
  | act action next ih => exact (Scan.agrees_act action).bind fun found => ih found.1 found.2
  | pass body next ihbody ihnext => exact ihbody.attempt.bind ihnext

end Client

/-! ## Passes are independent of history -/

namespace Source

/-- Sources that came from one are the same when started over, the counts
of calls aside. -/
theorem rewind_of_from {start s : Source} (hstart : start.Reliable) (hfrom : start.From s) :
    s.rewind.2 = start.rewind.2.recount s.fetches (s.rewinds + 1) := by
  have hs : s.rewindFault s.rewinds = none := by rw [hfrom.rewindFault, hstart.rewind]
  simp only [rewind, recount, hstart.rewind, hs, hfrom.contents, hfrom.fetchFault,
    hfrom.rewindFault]

end Source

namespace Scanner

/-- **Starting over leaves nothing of the past**: a scanner is then alike
the one it came from. -/
theorem alike_rewound {start s : Scanner} (hstart : start.stack.program.Reliable)
    (hfrom : From start s) : Alike start.reports s.reports start.rewound s.rewound := by
  refine ⟨Source.reliable_rewind hstart, s.stack.program.fetches, s.stack.program.rewinds + 1, [],
    rfl, ?_⟩
  simp only [rewound, withPast, Stack.recount, hfrom.options, hfrom.resolver,
    Source.rewind_of_from hstart hfrom.program, List.nil_append]

/-- Alike scanners sent the same text since. -/
theorem Alike.sentSince {earlier₁ earlier₂ s₁ s₂ : Scanner}
    (halike : Alike earlier₁.reports earlier₂.reports s₁ s₂) :
    s₂.sentSince earlier₂ = s₁.sentSince earlier₁ := by
  obtain ⟨-, fetches, rewinds, sent, hsent, rfl⟩ := halike
  simp [Scanner.sentSince, withPast, hsent]

end Scanner

namespace Scan

variable {α : Type}

/-- What a computation gives on a scanner: a value, or what it failed
of. -/
def result (x : Scan α) (s : Scanner) : Except (Failure Diagnostic) α :=
  match x s with
  | .ok a _ => .ok a
  | .error failure _ => .error failure

/-- A pass on a scanner whose program cannot fail begins with the scanner
rewound. -/
theorem runPass_of_reliable {s : Scanner} (x : Scan α) (hs : s.stack.program.Reliable) :
    runPass x s = closing x s.rewound := by
  rw [runPass, bind_of_ok (rewind_of_reliable hs)]

theorem runPass_of_from {start s : Scanner} {x : Scan α} (hx : x.Agrees)
    (hstart : start.stack.program.Reliable) (hfrom : From start s) :
    Same start.reports s.reports (runPass x start) (runPass x s) := by
  have hs : s.stack.program.Reliable :=
    ⟨fun n => by rw [hfrom.program.fetchFault, hstart.fetch],
      fun n => by rw [hfrom.program.rewindFault, hstart.rewind]⟩
  rw [runPass_of_reliable x hstart, runPass_of_reliable x hs]
  exact hx.closing (alike_rewound hstart hfrom)

end Scan

namespace Client

variable {α β : Type}

/-- **A pass is independent of history.** Whatever a client did with a
scanner on a text before, failed or not, a pass then gives what it gives
on a new scanner, and sends the same text on the way. -/
theorem runPass_independent_of_history (options : Options) (resolver : Resolver) (text : Bytes)
    (history : Client β) (pass : Client α) :
    let fresh := Scanner.start options resolver (.ofBytes text)
    let used := Scan.after history.run fresh
    Scan.result (Scan.runPass pass.run) used = Scan.result (Scan.runPass pass.run) fresh ∧
      (Scan.after (Scan.runPass pass.run) used).sentSince used =
        (Scan.after (Scan.runPass pass.run) fresh).sentSince fresh := by
  intro fresh used
  -- of all that was done before, only the operations it came to matter
  obtain ⟨ops, hops⟩ := history.composed_run fresh
  have hfrom : From fresh used := by
    rw [show used = _ from hops]
    exact Operation.from_afterAll ops fresh
  have hsame := Scan.runPass_of_from pass.agrees_run (Source.reliable_ofBytes text) hfrom
  rcases hsame.cases with ⟨a, _, _, hrun₁, hrun₂, halike⟩ | ⟨e, _, _, hrun₁, hrun₂, halike⟩
  · rw [Scan.result, Scan.result, Scan.after_of_ok hrun₁, Scan.after_of_ok hrun₂, hrun₁, hrun₂]
    exact ⟨rfl, halike.sentSince⟩
  · rw [Scan.result, Scan.result, Scan.after_of_error hrun₁, Scan.after_of_error hrun₂, hrun₁,
      hrun₂]
    exact ⟨rfl, halike.sentSince⟩

end Client

end BasicLexer
