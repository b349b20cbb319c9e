import BasicLexer.Proofs.Client.Client
import BasicLexer.Proofs.Input.Reliable

/-!
# Clients — scanners that no client can tell apart

A scanner keeps a little of its past that no operation gives away: how
often its program was fetched from and rewound, where no call to the
program fails, and the reports it made. `Scanner.Alike` says that two
scanners differ in that alone. What is computed with the one is computed
with the other, the reports sent on the way included (`Scan.Agrees`), and
this goes for every operation and for every client (`Client.agrees_run`).
-/

namespace BasicLexer

/-! ## Another past -/

namespace Source

/-- A source with other counts of the calls to it. -/
def recount (s : Source) (fetches rewinds : Nat) : Source := { s with fetches, rewinds }

theorem fetch_recount {s : Source} (hs : s.Reliable) (limit fetches rewinds : Nat) :
    (s.recount fetches rewinds).fetch limit =
      ((s.fetch limit).1, (s.fetch limit).2.recount (fetches + 1) rewinds) := by
  simp only [fetch, recount, hs.fetch]

theorem rewind_recount {s : Source} (hs : s.Reliable) (fetches rewinds : Nat) :
    (s.recount fetches rewinds).rewind =
      (s.rewind.1, s.rewind.2.recount fetches (rewinds + 1)) := by
  simp only [rewind, recount, hs.rewind]

theorem reliable_fetch {s : Source} (hs : s.Reliable) (limit : Nat) :
    (s.fetch limit).2.Reliable := by
  simp only [fetch, hs.fetch]
  exact ⟨hs.fetch, hs.rewind⟩

theorem reliable_rewind {s : Source} (hs : s.Reliable) : s.rewind.2.Reliable := by
  simp only [rewind, hs.rewind]
  exact ⟨hs.fetch, hs.rewind⟩

end Source

namespace Stack

/-- A stack whose program has other counts. -/
def recount (s : Stack) (fetches rewinds : Nat) : Stack :=
  { s with program := s.program.recount fetches rewinds }

theorem fetchFrom_recount {s : Stack} (hs : s.program.Reliable) (limit fetches rewinds : Nat)
    (files : List OpenFile) :
    ∃ fetches', fetchFrom limit (s.recount fetches rewinds) files =
        ((fetchFrom limit s files).1, (fetchFrom limit s files).2.recount fetches' rewinds) ∧
      (fetchFrom limit s files).2.program.Reliable := by
  induction files with
  | nil =>
    have hreliable := Source.reliable_fetch hs limit
    refine ⟨fetches + 1, ?_⟩
    simp only [fetchFrom, recount, Source.fetch_recount hs]
    rcases hfetch : s.program.fetch limit with ⟨_ | _, program⟩ <;> rw [hfetch] at hreliable <;>
      exact ⟨rfl, hreliable⟩
  | cons top below ih =>
    -- a line of an include file leaves the program alone
    simp only [fetchFrom]
    rcases top.source.fetch limit with ⟨_ | ⟨_ | _⟩, source⟩
    · exact ⟨fetches, rfl, hs⟩
    · exact ih
    · exact ⟨fetches, rfl, hs⟩

end Stack

namespace Scanner

/-- A scanner with another past: other counts of the calls to its program
and other reports. -/
def withPast (s : Scanner) (fetches rewinds : Nat) (reports : List String) : Scanner :=
  { s with stack := s.stack.recount fetches rewinds, reports }

/-- Two scanners are alike, since the reports given were all they had
made, if they differ in their past alone and made the same reports
since. -/
def Alike (old₁ old₂ : List String) (s₁ s₂ : Scanner) : Prop :=
  s₁.stack.program.Reliable ∧
    ∃ fetches rewinds sent, s₁.reports = sent ++ old₁ ∧
      s₂ = s₁.withPast fetches rewinds (sent ++ old₂)

namespace Alike

variable {old₁ old₂ : List String} {s₁ s₂ : Scanner}

/-- What does not look at the past looks the same. -/
theorem view {β : Type} (halike : Alike old₁ old₂ s₁ s₂) (look : Scanner → β)
    (hpast : ∀ s fetches rewinds reports, look (s.withPast fetches rewinds reports) = look s) :
    look s₂ = look s₁ := by
  obtain ⟨-, fetches, rewinds, sent, -, rfl⟩ := halike
  exact hpast s₁ fetches rewinds (sent ++ old₂)

theorem position (halike : Alike old₁ old₂ s₁ s₂) : s₂.position = s₁.position :=
  halike.view Scanner.position fun _ _ _ _ => rfl

theorem standing (halike : Alike old₁ old₂ s₁ s₂) : s₂.standing = s₁.standing :=
  halike.view Scanner.standing fun _ _ _ _ => rfl

theorem activeFile (halike : Alike old₁ old₂ s₁ s₂) : s₂.activeFile = s₁.activeFile :=
  halike.view Scanner.activeFile fun _ _ _ _ => rfl

theorem head (halike : Alike old₁ old₂ s₁ s₂) : s₂.head = s₁.head :=
  halike.view Scanner.head fun _ _ _ _ => rfl

theorem saved (halike : Alike old₁ old₂ s₁ s₂) : s₂.saved = s₁.saved :=
  halike.view Scanner.saved fun _ _ _ _ => rfl

theorem options (halike : Alike old₁ old₂ s₁ s₂) : s₂.options = s₁.options :=
  halike.view Scanner.options fun _ _ _ _ => rfl

theorem resolver (halike : Alike old₁ old₂ s₁ s₂) : s₂.resolver = s₁.resolver :=
  halike.view Scanner.resolver fun _ _ _ _ => rfl

theorem included (halike : Alike old₁ old₂ s₁ s₂) : s₂.included = s₁.included :=
  halike.view Scanner.included fun _ _ _ _ => rfl

/-- A change to the present of alike scanners leaves them alike. -/
theorem map (halike : Alike old₁ old₂ s₁ s₂) (change : Scanner → Scanner)
    (hprogram : (change s₁).stack.program = s₁.stack.program)
    (hreports : (change s₁).reports = s₁.reports)
    (hpast : ∀ fetches rewinds reports, change (s₁.withPast fetches rewinds reports) =
      (change s₁).withPast fetches rewinds reports) :
    Alike old₁ old₂ (change s₁) (change s₂) := by
  obtain ⟨hreliable, fetches, rewinds, sent, hsent, rfl⟩ := halike
  exact ⟨by rwa [hprogram], fetches, rewinds, sent, hreports.trans hsent, hpast _ _ _⟩

theorem setHead (halike : Alike old₁ old₂ s₁ s₂) (head : Head) :
    Alike old₁ old₂ { s₁ with head } { s₂ with head } :=
  halike.map (fun s => { s with head }) rfl rfl fun _ _ _ => rfl

theorem setSaved (halike : Alike old₁ old₂ s₁ s₂) (saved : Option Token) :
    Alike old₁ old₂ { s₁ with saved } { s₂ with saved } :=
  halike.map (fun s => { s with saved }) rfl rfl fun _ _ _ => rfl

theorem closeAll (halike : Alike old₁ old₂ s₁ s₂) : Alike old₁ old₂ s₁.closeAll s₂.closeAll :=
  halike.map Scanner.closeAll rfl rfl fun _ _ _ => rfl

/-- A report that both make is made since. -/
theorem report (halike : Alike old₁ old₂ s₁ s₂) (text : String) :
    Alike old₁ old₂ { s₁ with reports := text :: s₁.reports }
      { s₂ with reports := text :: s₂.reports } := by
  obtain ⟨hreliable, fetches, rewinds, sent, hsent, rfl⟩ := halike
  exact ⟨hreliable, fetches, rewinds, text :: sent, congrArg (text :: ·) hsent, rfl⟩

end Alike

end Scanner

/-! ## Computations that do not tell -/

namespace Scan

open Scanner

variable {α β : Type}

/-- Two runs are the same if they give the same value or the same failure
and leave alike scanners. -/
def Same (old₁ old₂ : List String) :
    EStateM.Result (Failure Diagnostic) Scanner α →
    EStateM.Result (Failure Diagnostic) Scanner α → Prop
  | .ok a s₁, .ok b s₂ => a = b ∧ Alike old₁ old₂ s₁ s₂
  | .error e s₁, .error e' s₂ => e = e' ∧ Alike old₁ old₂ s₁ s₂
  | _, _ => False

theorem Same.cases {old₁ old₂ : List String}
    {run₁ run₂ : EStateM.Result (Failure Diagnostic) Scanner α} (hsame : Same old₁ old₂ run₁ run₂) :
    (∃ a s₁ s₂, run₁ = .ok a s₁ ∧ run₂ = .ok a s₂ ∧ Alike old₁ old₂ s₁ s₂) ∨
    (∃ e s₁ s₂, run₁ = .error e s₁ ∧ run₂ = .error e s₂ ∧ Alike old₁ old₂ s₁ s₂) := by
  cases run₁ <;> cases run₂
  · obtain ⟨rfl, halike⟩ := hsame
    exact .inl ⟨_, _, _, rfl, rfl, halike⟩
  · exact hsame.elim
  · exact hsame.elim
  · obtain ⟨rfl, halike⟩ := hsame
    exact .inr ⟨_, _, _, rfl, rfl, halike⟩

/-- A computation agrees if its runs on alike scanners are the same. -/
def Agrees (x : Scan α) : Prop :=
  ∀ ⦃old₁ old₂ s₁ s₂⦄, Alike old₁ old₂ s₁ s₂ → Same old₁ old₂ (x s₁) (x s₂)

namespace Agrees

theorem pure (a : α) : Agrees (Pure.pure a : Scan α) := fun _ _ _ _ halike => ⟨rfl, halike⟩

theorem throw (failure : Failure Diagnostic) : Agrees (MonadExcept.throw failure : Scan α) :=
  fun _ _ _ _ halike => ⟨rfl, halike⟩

theorem bind {x : Scan α} {f : α → Scan β} (hx : x.Agrees) (hf : ∀ a, (f a).Agrees) :
    (x >>= f).Agrees := by
  intro old₁ old₂ s₁ s₂ halike
  rcases (hx halike).cases with ⟨a, _, _, hrun₁, hrun₂, hafter⟩ | ⟨e, _, _, hrun₁, hrun₂, hafter⟩
  · rw [bind_of_ok hrun₁, bind_of_ok hrun₂]
    exact hf a hafter
  · rw [bind_of_error hrun₁, bind_of_error hrun₂]
    exact ⟨rfl, hafter⟩

theorem closing {x : Scan α} (hx : x.Agrees) : (Scan.closing x).Agrees := by
  intro old₁ old₂ s₁ s₂ halike
  rw [Scan.closing, Scan.closing]
  rcases (hx halike).cases with ⟨a, _, _, hrun₁, hrun₂, hafter⟩ | ⟨e, _, _, hrun₁, hrun₂, hafter⟩
  · rw [hrun₁, hrun₂]
    exact ⟨rfl, hafter⟩
  · rw [hrun₁, hrun₂]
    cases e with
    | reported diagnostic => exact ⟨rfl, hafter.closeAll⟩
    | breach breach => exact ⟨rfl, hafter⟩

end Agrees

/-! ## Operations do not tell -/

theorem agrees_fail (cause : Cause) : Agrees (fail cause : Scan α) := by
  intro old₁ old₂ s₁ s₂ halike
  simp only [fail, halike.position]
  exact ⟨rfl, (halike.report _).closeAll⟩

theorem agrees_reading (x : Reader α) : Agrees (reading x) := by
  intro old₁ old₂ s₁ s₂ halike
  simp only [reading, halike.head]
  rcases x s₁.head with ⟨a, head⟩ | ⟨cause | breach, head⟩
  · exact ⟨rfl, halike.setHead head⟩
  · exact agrees_fail cause (halike.setHead head)
  · exact ⟨rfl, halike.setHead head⟩

theorem agrees_nextToken : Agrees nextToken := by
  intro old₁ old₂ s₁ s₂ halike
  rw [nextToken, nextToken, halike.options]
  exact agrees_reading _ halike

theorem agrees_getToken : Agrees getToken := by
  intro old₁ old₂ s₁ s₂ halike
  rw [getToken, getToken, halike.saved]
  cases s₁.saved with
  | some token => exact ⟨rfl, halike.setSaved none⟩
  | none => exact agrees_nextToken halike

theorem agrees_saveToken (token : Token) : Agrees (saveToken token) := by
  intro old₁ old₂ s₁ s₂ halike
  simp only [saveToken, halike.saved]
  cases s₁.saved with
  | some _ => exact ⟨rfl, halike⟩
  | none => exact ⟨rfl, halike.setSaved (some token)⟩

theorem agrees_requireToken (token : Token) (kind : Kind) : Agrees (requireToken token kind) := by
  intro old₁ old₂ s₁ s₂ halike
  simp only [requireToken, halike.head]
  by_cases hkind : token.kind = kind
  · simp only [if_pos hkind]
    exact ⟨rfl, halike⟩
  · simp only [if_neg hkind]
    exact agrees_fail _ (halike.setHead _)

theorem agrees_fetchAndRequire (kind : Kind) : Agrees (fetchAndRequire kind) :=
  agrees_getToken.bind fun token => agrees_requireToken token kind

theorem agrees_nextChars (count : Nat) : Agrees (nextChars count) := by
  induction count with
  | zero => exact .pure []
  | succ count ih => exact (agrees_reading _).bind fun _ => ih.bind fun _ => .pure _

theorem agrees_pushInclude (name : String) : Agrees (pushInclude name) := by
  intro old₁ old₂ s₁ s₂ halike
  have hopen : s₂.resolver.open? name = s₁.resolver.open? name := by rw [halike.resolver]
  rw [pushInclude, pushInclude, halike.included]
  rcases s₁.included.insert name with ⟨⟨entry, _ | _⟩, included⟩
  · exact ⟨rfl, halike⟩
  · dsimp only
    rw [hopen]
    cases s₁.resolver.open? name with
    | some source =>
      exact ⟨rfl, halike.map (fun s => { s with included, stack := s.stack.push source entry })
        rfl rfl fun _ _ _ => rfl⟩
    | none => exact ⟨rfl, halike.map (fun s => { s with included }) rfl rfl fun _ _ _ => rfl⟩

theorem agrees_closeAll : Agrees closeAll := fun _ _ _ _ halike => ⟨rfl, halike.closeAll⟩

/-- Alike scanners fetch the same and are alike after it. -/
theorem alike_fetch {old₁ old₂ : List String} {s₁ s₂ : Scanner} (halike : Alike old₁ old₂ s₁ s₂) :
    ∃ found stack₁ stack₂, s₁.stack.fetch s₁.options.maxLine = (found, stack₁) ∧
      s₂.stack.fetch s₂.options.maxLine = (found, stack₂) ∧
      Alike old₁ old₂ { s₁ with stack := stack₁ } { s₂ with stack := stack₂ } := by
  obtain ⟨hreliable, fetches, rewinds, sent, hsent, rfl⟩ := halike
  obtain ⟨fetches', hfetch, hreliable'⟩ :=
    Stack.fetchFrom_recount hreliable s₁.options.maxLine fetches rewinds s₁.stack.includes
  exact ⟨_, _, _, rfl, hfetch, hreliable', fetches', rewinds, sent, hsent, rfl⟩

theorem agrees_getLine : Agrees getLine := by
  intro old₁ old₂ s₁ s₂ halike
  obtain ⟨found, stack₁, stack₂, hfetch₁, hfetch₂, hafter⟩ := alike_fetch halike
  rw [getLine, getLine, hfetch₁, hfetch₂]
  rcases found with fault | _ | ⟨b, line⟩
  -- the report names the file the failed fetch was made from
  · let lost (s : Scanner) : Scanner := { s with head := s.head.lose }
    have hlost := hafter.map lost rfl rfl fun _ _ _ => rfl
    show Same old₁ old₂ (fail (.readError (lost { s₁ with stack := stack₁ }).activeFile fault) _)
      (fail (.readError (lost { s₂ with stack := stack₂ }).activeFile fault) _)
    rw [hlost.activeFile]
    exact agrees_fail _ hlost
  · exact ⟨rfl, hafter.map (fun s => { s with head := s.head.load [] }) rfl rfl fun _ _ _ => rfl⟩
  · exact ⟨rfl, hafter.map
      (fun s => { s with head := s.head.load (terminated (b :: line)), saved := none })
      rfl rfl fun _ _ _ => rfl⟩

end Scan

/-! ## Starting over -/

namespace Scanner

/-- A scanner that started a new pass. -/
def rewound (s : Scanner) : Scanner :=
  { s with
    stack := { program := s.stack.program.rewind.2 }
    included := .empty
    head := {}
    saved := none }

theorem rewound_withPast {s : Scanner} (hs : s.stack.program.Reliable) (fetches rewinds : Nat)
    (reports : List String) :
    (s.withPast fetches rewinds reports).rewound =
      s.rewound.withPast fetches (rewinds + 1) reports := by
  simp only [rewound, withPast, Stack.recount, Source.rewind_recount hs]

end Scanner

namespace Scan

open Scanner

variable {α : Type}

theorem rewind_of_reliable {s : Scanner} (hs : s.stack.program.Reliable) :
    rewind s = .ok () s.rewound := by
  simp only [rewind, Scanner.closeAll, Stack.closeAll, Stack.rewind, rewound, Source.rewind,
    hs.rewind]

theorem agrees_rewind : Agrees rewind := by
  intro old₁ old₂ s₁ s₂ halike
  obtain ⟨hreliable, fetches, rewinds, sent, hsent, rfl⟩ := halike
  have hpast : (s₁.withPast fetches rewinds (sent ++ old₂)).stack.program.Reliable :=
    ⟨hreliable.fetch, hreliable.rewind⟩
  rw [rewind_of_reliable hreliable, rewind_of_reliable hpast, rewound_withPast hreliable]
  exact ⟨rfl, Source.reliable_rewind hreliable, fetches, rewinds + 1, sent, hsent, rfl⟩

theorem Agrees.runPass {x : Scan α} (hx : x.Agrees) : (Scan.runPass x).Agrees :=
  agrees_rewind.bind fun _ => hx.closing

theorem Agrees.attempt {x : Scan α} (hx : x.Agrees) : (Scan.attempt x).Agrees := by
  intro old₁ old₂ s₁ s₂ halike
  rw [Scan.attempt, Scan.attempt]
  rcases (hx.runPass halike).cases with
    ⟨a, _, _, hrun₁, hrun₂, hafter⟩ | ⟨e, _, _, hrun₁, hrun₂, hafter⟩
  · rw [hrun₁, hrun₂]
    exact ⟨rfl, hafter⟩
  · rw [hrun₁, hrun₂]
    cases e <;> exact ⟨rfl, hafter⟩

end Scan

end BasicLexer
