import BasicLexer.Diagnostic.Collector

/-!
# Diagnostics — what collectors hold

Texts are sent to handles, and handles are made, new ones or copies
(`Collectors.Step`). A buffer holds the texts that were sent to the handles on
it, in order (`Collectors.Holds`), which every step keeps; and no step takes a
handle off its buffer. So a handle reads all that was sent to it and to those
it shares its buffer with, before it was made or since
(`Collectors.contents?_afterAll`), and a copy always reads what its original
reads (`Collectors.contents?_copy`).
-/

namespace BasicLexer

namespace Collectors

/-- What can be done with handles. -/
inductive Step where
  | emit (handle : Nat) (text : String)
  | fresh
  | copy (handle : Nat)

/-- What a step leaves. There is no copy of a handle that there is not. -/
def Step.after : Step → Collectors → Collectors
  | emit handle text, c => c.emit handle text
  | fresh, c => c.fresh.2
  | copy handle, c => ((c.copy? handle).map Prod.snd).getD c

/-- What a step sends, with the handle it is sent to, if there is one. -/
def Step.sent : Step → Collectors → List (Nat × String)
  | emit handle text, c => if handle < c.handles.size then [(handle, text)] else []
  | fresh, _ | copy _, _ => []

/-- What steps leave, in order. -/
def afterAll (steps : List Step) (c : Collectors) : Collectors :=
  steps.foldl (fun c step => step.after c) c

/-- What steps send, in order. -/
def sentAll : List Step → Collectors → List (Nat × String)
  | [], _ => []
  | step :: steps, c => step.sent c ++ sentAll steps (step.after c)

/-- The texts sent to the handles on a buffer, put together. -/
def textOn (handles : Array Nat) (sent : List (Nat × String)) (buffer : Nat) : String :=
  String.join ((sent.filter fun s => handles[s.1]? = some buffer).map Prod.snd)

/-- The buffers hold what was sent: every handle is on a buffer, what was sent
was sent to handles, and each buffer holds the texts of its own. -/
structure Holds (c : Collectors) (sent : List (Nat × String)) : Prop where
  placed : ∀ buffer ∈ c.handles, buffer < c.buffers.size
  known : ∀ s ∈ sent, s.1 < c.handles.size
  texts : ∀ buffer < c.buffers.size, c.buffers[buffer]? = some (textOn c.handles sent buffer)

variable {c : Collectors} {handles : Array Nat} {sent : List (Nat × String)}
variable {handle buffer : Nat}

/-! ## The texts on a buffer -/

theorem textOn_append (more : List (Nat × String)) :
    textOn handles (sent ++ more) buffer =
      textOn handles sent buffer ++ textOn handles more buffer := by
  rw [textOn, List.filter_append, List.map_append, String.join_append]
  rfl

theorem textOn_singleton (text : String) :
    textOn handles [(handle, text)] buffer =
      if handles[handle]? = some buffer then text else "" := by
  by_cases hhandle : handles[handle]? = some buffer <;> simp [textOn, hhandle, String.join]

/-- A handle more makes no difference to what was sent before. -/
theorem textOn_push (hknown : ∀ s ∈ sent, s.1 < handles.size) (next : Nat) :
    textOn (handles.push next) sent buffer = textOn handles sent buffer := by
  have hsame : ∀ s ∈ sent, (decide ((handles.push next)[s.1]? = some buffer)) =
      decide (handles[s.1]? = some buffer) := fun s hs => by
    rw [Array.getElem?_push, if_neg (Nat.ne_of_lt (hknown s hs))]
  rw [textOn, List.filter_congr hsame, textOn]

/-- Nothing was sent to a buffer that no handle is on. -/
theorem textOn_of_notMem (hbuffer : buffer ∉ handles) : textOn handles sent buffer = "" := by
  have hnone : sent.filter (fun s => handles[s.1]? = some buffer) = [] :=
    List.filter_eq_nil_iff.mpr fun s _ hs =>
      hbuffer (Array.mem_of_getElem? (of_decide_eq_true hs))
  rw [textOn, hnone]
  rfl

/-! ## One step -/

theorem copy?_eq_some (hhandle : c.handles[handle]? = some buffer) :
    c.copy? handle = some (c.handles.size, { c with handles := c.handles.push buffer }) := by
  rw [copy?, hhandle]
  rfl

theorem copy?_eq_none (hhandle : c.handles[handle]? = none) : c.copy? handle = none := by
  rw [copy?, hhandle]
  rfl

namespace Holds

theorem initial : Holds .initial [] where
  placed := by decide
  known := List.forall_mem_nil _
  texts buffer hbuffer := by
    obtain rfl : buffer = 0 := Nat.lt_one_iff.mp hbuffer
    rfl

theorem emit (hc : c.Holds sent) (handle : Nat) (text : String) :
    (c.emit handle text).Holds (sent ++ (Step.emit handle text).sent c) := by
  rw [Collectors.emit, Step.sent]
  cases hhandle : c.handles[handle]? with
  | none =>
    rw [if_neg (Nat.not_lt.mpr (Array.getElem?_eq_none_iff.mp hhandle)), List.append_nil]
    exact hc
  | some place =>
    have hlt := (Array.getElem?_eq_some_iff.mp hhandle).1
    rw [if_pos hlt]
    refine ⟨fun buffer hbuffer => ?_, ?_, fun buffer hbuffer => ?_⟩
    · rw [Array.size_modify]
      exact hc.placed buffer hbuffer
    · exact List.forall_mem_append.mpr ⟨hc.known, List.forall_mem_singleton.mpr hlt⟩
    · rw [Array.size_modify] at hbuffer
      rw [Array.getElem?_modify, hc.texts buffer hbuffer, textOn_append, textOn_singleton, hhandle]
      by_cases hplace : place = buffer
      · simp [hplace]
      · simp [hplace]

theorem fresh (hc : c.Holds sent) : c.fresh.2.Holds sent where
  placed buffer hbuffer := by
    rw [Collectors.fresh, Array.size_push]
    rcases Array.mem_push.mp hbuffer with hold | rfl
    · exact Nat.lt_succ_of_lt (hc.placed buffer hold)
    · exact Nat.lt_succ_self _
  known s hs := by
    rw [Collectors.fresh, Array.size_push]
    exact Nat.lt_succ_of_lt (hc.known s hs)
  texts buffer hbuffer := by
    rw [Collectors.fresh, Array.size_push] at hbuffer
    rw [Collectors.fresh, textOn_push hc.known, Array.getElem?_push]
    split
    · next hnew =>
      have hnone : buffer ∉ c.handles := fun hmem =>
        Nat.lt_irrefl _ (hnew ▸ hc.placed buffer hmem)
      rw [textOn_of_notMem hnone]
    · next hold => exact hc.texts buffer (by omega)

theorem copy (hc : c.Holds sent) (handle : Nat) : ((Step.copy handle).after c).Holds sent := by
  rw [Step.after]
  cases hhandle : c.handles[handle]? with
  | none =>
    rw [copy?_eq_none hhandle]
    exact hc
  | some place =>
    rw [copy?_eq_some hhandle, Option.map_some, Option.getD_some]
    refine ⟨fun buffer hbuffer => ?_, fun s hs => ?_, fun buffer hbuffer => ?_⟩
    · rcases Array.mem_push.mp hbuffer with hold | rfl
      · exact hc.placed buffer hold
      · exact hc.placed _ (Array.mem_of_getElem? hhandle)
    · rw [Array.size_push]
      exact Nat.lt_succ_of_lt (hc.known s hs)
    · rw [textOn_push hc.known]
      exact hc.texts buffer hbuffer

/-- **A step keeps the buffers**: they hold what it sends besides. -/
theorem after (hc : c.Holds sent) (step : Step) :
    (step.after c).Holds (sent ++ step.sent c) := by
  cases step with
  | emit handle text => exact hc.emit handle text
  | fresh => rw [Step.sent, List.append_nil]; exact hc.fresh
  | copy handle => rw [Step.sent, List.append_nil]; exact hc.copy handle

theorem afterAll (hc : c.Holds sent) (steps : List Step) :
    (Collectors.afterAll steps c).Holds (sent ++ sentAll steps c) := by
  induction steps generalizing c sent with
  | nil =>
    rw [sentAll, List.append_nil]
    exact hc
  | cons step steps ih =>
    rw [sentAll, ← List.append_assoc]
    exact ih (hc.after step)

/-- What a handle reads. -/
theorem contents? (hc : c.Holds sent) (hhandle : c.handles[handle]? = some buffer) :
    c.contents? handle = some (textOn c.handles sent buffer) := by
  rw [Collectors.contents?, hhandle]
  exact hc.texts buffer (hc.placed buffer (Array.mem_of_getElem? hhandle))

end Holds

/-! ## Handles stay on their buffers -/

/-- A step adds a handle at most, and leaves the others where they are. -/
theorem getElem?_handles_after (step : Step) (hhandle : c.handles[handle]? = some buffer) :
    (step.after c).handles[handle]? = some buffer := by
  have hlt := (Array.getElem?_eq_some_iff.mp hhandle).1
  have hpush (next : Nat) : (c.handles.push next)[handle]? = some buffer := by
    rw [Array.getElem?_push, if_neg (Nat.ne_of_lt hlt), hhandle]
  cases step with
  | emit other text =>
    rw [Step.after, emit]
    split <;> exact hhandle
  | fresh => exact hpush _
  | copy other =>
    rw [Step.after]
    cases hother : c.handles[other]? with
    | none =>
      rw [copy?_eq_none hother]
      exact hhandle
    | some place =>
      rw [copy?_eq_some hother]
      exact hpush place

theorem getElem?_handles_afterAll (steps : List Step) (hhandle : c.handles[handle]? = some buffer) :
    (afterAll steps c).handles[handle]? = some buffer := by
  induction steps generalizing c with
  | nil => exact hhandle
  | cons step steps ih => exact ih (getElem?_handles_after step hhandle)

/-! ## Runs -/

/-- **A handle reads what was sent to its buffer**: after any steps, the texts
sent to it and to all that share its buffer with it, in order. -/
theorem contents?_afterAll (steps : List Step) (handle : Nat) :
    let c := afterAll steps initial
    c.contents? handle =
      c.handles[handle]?.map (textOn c.handles (sentAll steps initial)) := by
  intro c
  have hc : c.Holds (sentAll steps initial) := Holds.initial.afterAll steps
  cases hhandle : c.handles[handle]? with
  | none => rw [contents?, hhandle]; rfl
  | some buffer => exact hc.contents? hhandle

/-- **A copy reads what its original reads**, whatever is sent to either and
whichever handles are made after it. -/
theorem contents?_copy {copied : Nat} {c' : Collectors}
    (hcopy : c.copy? handle = some (copied, c')) (steps : List Step) :
    (afterAll steps c').contents? copied = (afterAll steps c').contents? handle := by
  cases hhandle : c.handles[handle]? with
  | none =>
    rw [copy?_eq_none hhandle] at hcopy
    cases hcopy
  | some place =>
    rw [copy?_eq_some hhandle] at hcopy
    cases hcopy
    have hlt := (Array.getElem?_eq_some_iff.mp hhandle).1
    have hcopied : (c.handles.push place)[c.handles.size]? = some place :=
      Array.getElem?_push_size
    have horiginal : (c.handles.push place)[handle]? = some place := by
      rw [Array.getElem?_push, if_neg (Nat.ne_of_lt hlt), hhandle]
    rw [contents?, contents?, getElem?_handles_afterAll steps hcopied,
      getElem?_handles_afterAll steps horiginal]

end Collectors

end BasicLexer
