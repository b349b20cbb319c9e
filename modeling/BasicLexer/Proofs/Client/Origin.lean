import BasicLexer.Proofs.Client.Operations

/-!
# Clients — what a scanner came with

No operation changes the options of a scanner, the include files there are
for it, or what its program holds and which calls to the program fail:
`Operation.from_afterAll`.
-/

namespace BasicLexer

namespace Source

/-- What a source has of the one it came from, whatever was called. -/
structure From (start s : Source) : Prop where
  contents : s.contents = start.contents
  fetchFault : s.fetchFault = start.fetchFault
  rewindFault : s.rewindFault = start.rewindFault

theorem From.refl (s : Source) : From s s := ⟨rfl, rfl, rfl⟩

theorem From.trans {s s' s'' : Source} (h₁ : From s s') (h₂ : From s' s'') : From s s'' where
  contents := h₂.contents.trans h₁.contents
  fetchFault := h₂.fetchFault.trans h₁.fetchFault
  rewindFault := h₂.rewindFault.trans h₁.rewindFault

theorem from_fetch (limit : Nat) (s : Source) : From s (s.fetch limit).2 := by
  rw [fetch]
  cases s.fetchFault s.fetches <;> exact ⟨rfl, rfl, rfl⟩

theorem from_rewind (s : Source) : From s s.rewind.2 := by
  rw [rewind]
  cases s.rewindFault s.rewinds <;> exact ⟨rfl, rfl, rfl⟩

end Source

theorem Stack.from_fetchFrom (limit : Nat) (s : Stack) (files : List OpenFile) :
    s.program.From (fetchFrom limit s files).2.program := by
  induction files with
  | nil =>
    have hfrom := Source.from_fetch limit s.program
    rw [fetchFrom]
    rcases hfetch : s.program.fetch limit with ⟨_ | _, program⟩ <;> rw [hfetch] at hfrom <;>
      exact hfrom
  | cons top below ih =>
    rw [fetchFrom]
    rcases top.source.fetch limit with ⟨_ | ⟨_ | _⟩, source⟩
    · exact .refl _
    · exact ih
    · exact .refl _

namespace Scanner

/-- What a scanner has of the one it came from, whatever was done with
it: the options, the include files there are, and the program. -/
structure From (start s : Scanner) : Prop where
  options : s.options = start.options
  resolver : s.resolver = start.resolver
  program : start.stack.program.From s.stack.program

namespace From

theorem refl (s : Scanner) : From s s := ⟨rfl, rfl, .refl _⟩

theorem trans {s s' s'' : Scanner} (h₁ : From s s') (h₂ : From s' s'') : From s s'' where
  options := h₂.options.trans h₁.options
  resolver := h₂.resolver.trans h₁.resolver
  program := h₁.program.trans h₂.program

end From

end Scanner

namespace Operation

open Scanner

theorem from_reading {α : Type} (x : Reader α) (s : Scanner) :
    From s (Scan.after (Scan.reading x) s) := by
  rw [Scan.after, Scan.reading]
  rcases x s.head with ⟨_, _⟩ | ⟨⟨_⟩ | ⟨_⟩, _⟩ <;> exact ⟨rfl, rfl, .refl _⟩

theorem from_getLine (s : Scanner) : From s (Scan.after Scan.getLine s) := by
  have hfrom := Stack.from_fetchFrom s.options.maxLine s.stack s.stack.includes
  rw [Scan.after, Scan.getLine, Stack.fetch]
  rcases hfetch : Stack.fetchFrom s.options.maxLine s.stack s.stack.includes with
    ⟨_ | _ | _, stack⟩ <;> rw [hfetch] at hfrom <;> exact ⟨rfl, rfl, hfrom⟩

theorem from_getToken (s : Scanner) : From s (Scan.after Scan.getToken s) := by
  rw [Scan.after, Scan.getToken]
  cases s.saved with
  | some token => exact ⟨rfl, rfl, .refl _⟩
  | none => exact from_reading (Lexeme.read s.options) s

theorem from_requireToken (token : Token) (kind : Kind) (s : Scanner) :
    From s (Scan.after (Scan.requireToken token kind) s) := by
  rw [Scan.after, Scan.requireToken]
  by_cases hkind : token.kind = kind
  · rw [if_pos hkind]
    exact .refl s
  · rw [if_neg hkind]
    exact ⟨rfl, rfl, .refl _⟩

theorem from_pushInclude (name : String) (s : Scanner) :
    From s (Scan.after (Scan.pushInclude name) s) := by
  rw [Scan.after, Scan.pushInclude]
  rcases s.included.insert name with ⟨⟨entry, _ | _⟩, included⟩
  · exact .refl s
  · dsimp only
    cases s.resolver.open? name <;> exact ⟨rfl, rfl, .refl _⟩

theorem from_rewind (s : Scanner) : From s (Scan.after Scan.rewind s) := by
  have hfrom := Source.from_rewind s.stack.program
  rw [Scan.after, Scan.rewind]
  dsimp only [Scanner.closeAll, Stack.closeAll, Stack.rewind]
  rcases hrewind : s.stack.program.rewind with ⟨_ | _, program⟩ <;> rw [hrewind] at hfrom <;>
    exact ⟨rfl, rfl, hfrom⟩

/-- An operation leaves a scanner what it came with. -/
theorem from_after (op : Operation) (s : Scanner) : From s (op.after s) := by
  cases op with
  | getLine =>
    rw [after, run, Scan.after_silent]
    exact from_getLine s
  | getToken =>
    rw [after, run, Scan.after_silent]
    exact from_getToken s
  | saveToken token =>
    rw [after, run, Scan.after, Scan.saveToken]
    cases s.saved <;> exact ⟨rfl, rfl, .refl _⟩
  | requireToken token kind =>
    rw [after, run, Scan.after_silent]
    exact from_requireToken token kind s
  | nextChar =>
    rw [after, run, Scan.after_silent]
    exact from_reading _ s
  | skipSpaces =>
    rw [after, run, Scan.after_silent]
    exact from_reading _ s
  | pushBack => exact from_reading _ s
  | pushInclude name =>
    rw [after, run, Scan.after_silent]
    exact from_pushInclude name s
  | closeAll => exact ⟨rfl, rfl, .refl _⟩
  | rewind => exact from_rewind s
  | fail message arguments => exact ⟨rfl, rfl, .refl _⟩

/-- **Any run of operations does**, whichever of them fail. -/
theorem from_afterAll (ops : List Operation) (s : Scanner) : From s (afterAll ops s) := by
  induction ops generalizing s with
  | nil => exact .refl s
  | cons op ops ih => exact (from_after op s).trans (ih _)

end Operation

/-- What a pass finds at its beginning. -/
theorem Scan.begins_of_rewind {s begun : Scanner} (hbegin : Scan.rewind s = .ok () begun) :
    begun.options = s.options ∧ begun.resolver = s.resolver ∧ begun.included = .empty ∧
      begun.stack.includes = [] ∧
      begun.stack.program.contents = s.stack.program.contents ∧
      begun.stack.program.pending = begun.stack.program.contents := by
  rw [rewind] at hbegin
  dsimp only [Scanner.closeAll, Stack.closeAll, Stack.rewind, Source.rewind] at hbegin
  cases hfault : s.stack.program.rewindFault s.stack.program.rewinds with
  | some fault =>
    rw [hfault] at hbegin
    cases hbegin
  | none =>
    rw [hfault] at hbegin
    cases hbegin
    exact ⟨rfl, rfl, rfl, rfl, rfl, rfl⟩

end BasicLexer
