import BasicLexer.Scanner.Script

/-!
# Clients — the operations and what is made of them

All that happens to a scanner is made of a few operations
(`Operation`), each of which may fail and leaves the scanner somewhere
all the same. `Scan.Composed` says that a computation is so made: wherever
it ends, a list of operations leads there. A client (`Client`) is a
computation that goes by the replies it gets and runs passes of its own;
whatever it does is composed of operations (`Client.composed_run`).
-/

namespace BasicLexer

/-! ## Operations -/

/-- What can be done to a scanner in one step. -/
inductive Operation where
  | getLine
  | getToken
  | saveToken (token : Token)
  | requireToken (token : Token) (kind : Kind)
  | nextChar
  | skipSpaces
  | pushBack
  | pushInclude (name : String)
  | closeAll
  | rewind
  | fail (message : Message) (arguments : List String)
  deriving DecidableEq, Repr

namespace Scan

variable {α β : Type}

/-- Where a computation leaves a scanner, failed or not. -/
def after (x : Scan α) (s : Scanner) : Scanner :=
  match x s with
  | .ok _ s' => s'
  | .error _ s' => s'

theorem after_of_ok {x : Scan α} {s s' : Scanner} {a : α} (hrun : x s = .ok a s') :
    after x s = s' := by
  rw [after, hrun]

theorem after_of_error {x : Scan α} {s s' : Scanner} {failure : Failure Diagnostic}
    (hrun : x s = .error failure s') : after x s = s' := by
  rw [after, hrun]

/-- A computation for what it does to a scanner. -/
def silent (x : Scan α) : Scan Unit := do
  let _ ← x

theorem after_silent (x : Scan α) (s : Scanner) : after (silent x) s = after x s := by
  simp only [after, silent, Bind.bind, EStateM.bind]
  cases x s <;> rfl

end Scan

namespace Operation

/-- Run an operation. -/
def run : Operation → Scan Unit
  | getLine => Scan.silent Scan.getLine
  | getToken => Scan.silent Scan.getToken
  | saveToken token => Scan.saveToken token
  | requireToken token kind => Scan.silent (Scan.requireToken token kind)
  | nextChar => Scan.silent (Scan.reading Reader.next)
  | skipSpaces => Scan.silent (Scan.reading Reader.skipBlanks)
  | pushBack => Scan.reading Reader.pushBack
  | pushInclude name => Scan.silent (Scan.pushInclude name)
  | closeAll => Scan.closeAll
  | rewind => Scan.rewind
  | fail message arguments => Scan.fail (.stated message arguments)

/-- Where an operation leaves a scanner. -/
def after (op : Operation) (s : Scanner) : Scanner := Scan.after op.run s

/-- Where a list of operations leaves a scanner, in order and each
whether or not those before it failed. -/
def afterAll (ops : List Operation) (s : Scanner) : Scanner :=
  ops.foldl (fun s op => op.after s) s

theorem afterAll_append (ops more : List Operation) (s : Scanner) :
    afterAll (ops ++ more) s = afterAll more (afterAll ops s) :=
  List.foldl_append

end Operation

/-! ## Computations composed of operations -/

namespace Scan

variable {α β : Type}

/-- A computation is composed of operations if, from wherever it starts,
a list of operations leads to where it ends. -/
def Composed (x : Scan α) : Prop := ∀ s, ∃ ops, after x s = Operation.afterAll ops s

namespace Composed

/-- A computation that does what an operation does is composed of it. -/
theorem of_operation {x : Scan α} (op : Operation) (hx : ∀ s, op.after s = after x s) :
    x.Composed :=
  fun s => ⟨[op], (hx s).symm⟩

theorem pure (a : α) : Composed (Pure.pure a : Scan α) := fun _ => ⟨[], rfl⟩

theorem throw (failure : Failure Diagnostic) : Composed (MonadExcept.throw failure : Scan α) :=
  fun _ => ⟨[], rfl⟩

theorem bind {x : Scan α} {f : α → Scan β} (hx : x.Composed) (hf : ∀ a, (f a).Composed) :
    (x >>= f).Composed := by
  intro s
  obtain ⟨ops, hops⟩ := hx s
  cases hrun : x s with
  | ok a s' =>
    rw [after_of_ok hrun] at hops
    obtain ⟨more, hmore⟩ := hf a s'
    refine ⟨ops ++ more, ?_⟩
    rw [Operation.afterAll_append, ← hops, ← hmore, after, bind_of_ok hrun, after]
  | error failure s' =>
    -- the first part failed, and nothing more is done
    rw [after_of_error hrun] at hops
    exact ⟨ops, by rw [← hops, after, bind_of_error hrun]⟩

end Composed

theorem composed_getLine : Composed getLine := .of_operation .getLine (after_silent _)

theorem composed_getToken : Composed getToken := .of_operation .getToken (after_silent _)

theorem composed_saveToken (token : Token) : Composed (saveToken token) :=
  .of_operation (.saveToken token) fun _ => rfl

theorem composed_requireToken (token : Token) (kind : Kind) :
    Composed (requireToken token kind) :=
  .of_operation (.requireToken token kind) (after_silent _)

theorem composed_fetchAndRequire (kind : Kind) : Composed (fetchAndRequire kind) :=
  composed_getToken.bind fun token => composed_requireToken token kind

theorem composed_next : Composed (reading Reader.next) := .of_operation .nextChar (after_silent _)

theorem composed_nextChars (count : Nat) : Composed (nextChars count) := by
  induction count with
  | zero => exact .pure []
  | succ count ih => exact composed_next.bind fun _ => ih.bind fun _ => .pure _

theorem composed_skipBlanks : Composed (reading Reader.skipBlanks) :=
  .of_operation .skipSpaces (after_silent _)

theorem composed_pushBack : Composed (reading Reader.pushBack) :=
  .of_operation .pushBack fun _ => rfl

theorem composed_pushInclude (name : String) : Composed (pushInclude name) :=
  .of_operation (.pushInclude name) (after_silent _)

theorem composed_closeAll : Composed closeAll := .of_operation .closeAll fun _ => rfl

theorem composed_rewind : Composed rewind := .of_operation .rewind fun _ => rfl

theorem composed_fail (message : Message) (arguments : List String) :
    Composed (fail (.stated message arguments) : Scan Unit) :=
  .of_operation (.fail message arguments) fun _ => rfl

/-- A failed computation is closed by one operation more. -/
theorem Composed.closing {x : Scan α} (hx : x.Composed) : (Scan.closing x).Composed := by
  intro s
  obtain ⟨ops, hops⟩ := hx s
  cases hrun : x s with
  | ok a s' =>
    rw [after_of_ok hrun] at hops
    exact ⟨ops, by rw [after, Scan.closing, hrun]; exact hops⟩
  | error failure s' =>
    rw [after_of_error hrun] at hops
    cases failure with
    | breach breach => exact ⟨ops, by rw [after, Scan.closing, hrun]; exact hops⟩
    | reported diagnostic =>
      refine ⟨ops ++ [.closeAll], ?_⟩
      rw [Operation.afterAll_append, ← hops, after, Scan.closing, hrun]
      rfl

theorem Composed.runPass {x : Scan α} (hx : x.Composed) : (Scan.runPass x).Composed :=
  composed_rewind.bind fun _ => hx.closing

end Scan

end BasicLexer
