import BasicLexer.Proofs.OrderedSet
import BasicLexer.Scanner.Lines

/-!
# Scanner — requests for include files

A request for a name that is included already changes nothing; any other
name is included, and the resolver is asked for its file. Which names the
resolver is handed can be told by one that writes them down: a request
takes no other course with it (`Scan.pushInclude_eq_requestBy`).
-/

namespace BasicLexer

namespace Scan

/-- Request an include file, whatever it takes to open one. -/
def requestBy {m : Type → Type} [Monad m] (opener : String → m (Option Source)) (name : String)
    (s : Scanner) : m (IncludeStatus × Scanner) :=
  match s.included.insert name with
  | ((_, false), _) => pure (.alreadySatisfied, s)
  | ((entry, true), included) => do
    match ← opener name with
    | some source => pure (.opened, { s with included, stack := s.stack.push source entry })
    | none => pure (.notFound, { s with included })

end Scan

/-- Open an include file, and write down the name. -/
def Resolver.noting (resolver : Resolver) (name : String) :
    StateM (List String) (Option Source) := do
  modify (· ++ [name])
  return resolver.open? name

namespace Scan

variable {s s' : Scanner} {name : String}

/-- A request is one to the resolver, and to one that writes down the
names it is handed. -/
theorem pushInclude_eq_requestBy (name : String) (s : Scanner) (names : List String) :
    let plain := (requestBy (fun name => pure (s.resolver.open? name)) name s : Id _)
    let noted := (requestBy s.resolver.noting name s).run names
    pushInclude name s = .ok plain.1 plain.2 ∧ noted.1 = plain := by
  rw [pushInclude, requestBy, requestBy]
  rcases s.included.insert name with ⟨⟨entry, _ | _⟩, included⟩
  · exact ⟨rfl, rfl⟩
  · dsimp only
    simp only [Resolver.noting, StateT.run, Bind.bind, StateT.bind, Pure.pure]
    cases s.resolver.open? name <;> exact ⟨rfl, rfl⟩

/-- A name that is included already changes nothing. -/
theorem pushInclude_of_contains (hold : s.included.contains name = true) :
    pushInclude name s = .ok .alreadySatisfied s := by
  obtain ⟨i, hi⟩ := OrderedSet.insert_of_contains hold
  rw [pushInclude, hi]

/-- A name that is not is included, and its file is opened if there is
one. -/
theorem pushInclude_of_not_contains (hnew : s.included.contains name = false) :
    pushInclude name s = match s.resolver.open? name with
      | some source => .ok .opened
          { s with
            included := (s.included.insert name).2
            stack := s.stack.push source s.included.size }
      | none => .ok .notFound { s with included := (s.included.insert name).2 } := by
  rw [pushInclude, OrderedSet.insert_of_not_contains hnew]
  cases s.resolver.open? name <;> rfl

/-- **What a request can do**: nothing, or include a name for which there is
no file, or open one. -/
theorem pushInclude_cases {status : IncludeStatus} (hpush : pushInclude name s = .ok status s') :
    (s.included.contains name = true ∧ status = .alreadySatisfied ∧ s' = s) ∨
    (s.included.contains name = false ∧ s.resolver.open? name = none ∧ status = .notFound ∧
      s' = { s with included := (s.included.insert name).2 }) ∨
    (∃ source, s.included.contains name = false ∧ s.resolver.open? name = some source ∧
      status = .opened ∧
      s' = { s with
        included := (s.included.insert name).2
        stack := s.stack.push source s.included.size }) := by
  cases hold : s.included.contains name with
  | true =>
    rw [pushInclude_of_contains hold] at hpush
    cases hpush
    exact .inl ⟨rfl, rfl, rfl⟩
  | false =>
    rw [pushInclude_of_not_contains hold] at hpush
    cases hopen : s.resolver.open? name with
    | none =>
      rw [hopen] at hpush
      cases hpush
      exact .inr (.inl ⟨rfl, rfl, rfl, rfl⟩)
    | some source =>
      rw [hopen] at hpush
      cases hpush
      exact .inr (.inr ⟨source, rfl, rfl, rfl, rfl⟩)

/-- The names a request hands to the resolver: its own, unless it is
included. -/
def handed (name : String) (s : Scanner) : List String :=
  ((requestBy s.resolver.noting name s).run []).2

theorem handed_of_contains (hold : s.included.contains name = true) : handed name s = [] := by
  obtain ⟨i, hi⟩ := OrderedSet.insert_of_contains hold
  rw [handed, requestBy, hi]
  rfl

theorem handed_of_not_contains (hnew : s.included.contains name = false) :
    handed name s = [name] := by
  rw [handed, requestBy, OrderedSet.insert_of_not_contains hnew]
  simp only [Resolver.noting, StateT.run, Bind.bind, StateT.bind, Pure.pure]
  cases s.resolver.open? name <;> rfl

end Scan

end BasicLexer
