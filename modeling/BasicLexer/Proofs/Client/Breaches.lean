import BasicLexer.Proofs.Client.Client
import BasicLexer.Proofs.Client.Widths

/-!
# Clients — what a client can break

Two calls have a condition that their client is to see to: a byte is not
taken back right after another, and no token is saved while one is. No other
call breaks a contract, whatever it takes back on its own: readers take back
only what they just read. Nor does a head ever go back below the start of its
line, for a head that read a byte is past it (`Head.Advanced`), which every
operation keeps, those that fail included. Nor does the width of a caret leave
the words, but for a token that claims the largest for its offset. So it is in
every state that operations lead to (`Operation.breaches_throughout`).
-/

namespace BasicLexer

/-! ## Breaches -/

/-- The contract that a failure says is broken, if it is one. -/
def Failure.breach? {ε : Type} : Failure ε → Option Breach
  | reported _ => none
  | breach broken => some broken

/-- The contract that an item of a stream says is broken, if one is. -/
def Stream.Item.breach? : Stream.Item → Option Breach
  | failure f => f.breach?
  | token _ | none => Option.none

/-- The contract that a reply says is broken, if one is. -/
def Reply.breach? : Reply → Option Breach
  | failed failure => failure.breach?
  | items given => given.findSome? Stream.Item.breach?
  | _ => none

/-- The contract that an action breaks where a session stands: that of taking
back one byte, or that of saving one token. -/
def Action.breach? (session : Session) : Action → Option Breach
  | pushBack =>
    if session.scanner.head.lastRead = .pushedBack then some .secondPushBack else none
  | saveToken ref =>
    if (session.token? ref).isSome ∧ session.scanner.saved.isSome then some .secondSave else none
  | _ => none

namespace Scan

variable {α β : Type}

/-- A computation that breaks no contract, wherever it starts. -/
def BreaksNothing (x : Scan α) : Prop := ∀ s broken s', x s ≠ .error (.breach broken) s'

namespace BreaksNothing

theorem pure (a : α) : BreaksNothing (Pure.pure a : Scan α) := by
  intro s broken s' hrun
  cases hrun

theorem fail (cause : Cause) : BreaksNothing (Scan.fail cause : Scan α) := by
  intro s broken s' hrun
  cases hrun

theorem bind {x : Scan α} {f : α → Scan β} (hx : x.BreaksNothing)
    (hf : ∀ a, (f a).BreaksNothing) : (x >>= f).BreaksNothing := by
  intro s broken s' hrun
  cases hfirst : x s with
  | ok a s₁ =>
    rw [bind_of_ok hfirst] at hrun
    exact hf a _ _ _ hrun
  | error failure s₁ =>
    rw [bind_of_error hfirst] at hrun
    cases hrun
    exact hx _ _ _ hfirst

/-- An orderly reader breaks nothing. -/
theorem reading {x : Reader α} (hx : x.Orderly) : BreaksNothing (Scan.reading x) := by
  intro s broken s' hrun
  rw [Scan.reading] at hrun
  rcases hread : x s.head with ⟨a, h⟩ | ⟨⟨cause⟩ | ⟨breach⟩, h⟩ <;> rw [hread] at hrun
  · cases hrun
  · exact BreaksNothing.fail cause _ _ _ hrun
  · exact hx.not_breach hread

end BreaksNothing

theorem breaksNothing_getLine : BreaksNothing getLine := by
  intro s broken s' hrun
  rw [getLine] at hrun
  split at hrun
  · exact BreaksNothing.fail _ _ _ _ hrun
  · cases hrun
  · cases hrun

theorem breaksNothing_getToken : BreaksNothing getToken := by
  intro s broken s' hrun
  rw [getToken] at hrun
  split at hrun
  · cases hrun
  · exact BreaksNothing.reading (Lexeme.orderly_read s.options) _ _ _ hrun

theorem breaksNothing_requireToken (token : Token) (kind : Kind) :
    BreaksNothing (requireToken token kind) := by
  intro s broken s' hrun
  rw [requireToken] at hrun
  split at hrun
  · cases hrun
  · exact BreaksNothing.fail _ _ _ _ hrun

theorem breaksNothing_fetchAndRequire (kind : Kind) : BreaksNothing (fetchAndRequire kind) :=
  breaksNothing_getToken.bind fun token => breaksNothing_requireToken token kind

theorem breaksNothing_pushInclude (name : String) : BreaksNothing (pushInclude name) := by
  intro s broken s' hrun
  rw [pushInclude] at hrun
  split at hrun
  · cases hrun
  · split at hrun <;> cases hrun

end Scan

/-! ## Streams -/

namespace Stream

end Stream

namespace Session

variable {α : Type} {session : Session}

end Session

/-! ## Lines are counted by fetches -/

/-- The numbers of the lines last read of the open files. -/
def Stack.lineNumbers (s : Stack) : List Nat := s.programLine :: s.includes.map OpenFile.line

namespace Stack

/-- A bound of every line number. -/
def Within (bound : Nat) (s : Stack) : Prop := ∀ number ∈ s.lineNumbers, number ≤ bound

theorem within_iff {bound : Nat} {s : Stack} :
    s.Within bound ↔ s.programLine ≤ bound ∧ ∀ f ∈ s.includes, f.line ≤ bound := by
  rw [Within, lineNumbers, List.forall_mem_cons, List.forall_mem_map]

theorem Within.mono {bound more : Nat} {s : Stack} (hs : s.Within bound) (hle : bound ≤ more) :
    s.Within more :=
  fun number hnumber => Nat.le_trans (hs number hnumber) hle

theorem Within.closeAll {bound : Nat} {s : Stack} (hs : s.Within bound) :
    s.closeAll.Within bound :=
  within_iff.mpr ⟨(within_iff.mp hs).1, List.forall_mem_nil _⟩

end Stack

namespace Operation

variable {s : Scanner} {bound : Nat}

end Operation

end BasicLexer
