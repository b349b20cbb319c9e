import BasicLexer.Proofs.OrderedSet
import Mathlib.Data.List.Induction

/-!
# Ordered sets — runs of insertions and clearings

Keys are inserted and sets cleared in any order and any number of times. A
set after such a run is the set of the keys inserted since it was last
cleared (`OrderedSet.afterAll_eq`): it has each of them once, where it was
first inserted, and the places it has given stand for the same keys for as
long as it is not cleared again (`OrderedSet.Keeps`).
-/

namespace BasicLexer

namespace OrderedSet

/-- What is done to a set. -/
inductive Step (α : Type) where
  | insert (a : α)
  | clear
  deriving DecidableEq, Repr

namespace Step

/-- The key a step inserts. -/
def key? {α : Type} : Step α → Option α
  | insert a => some a
  | clear => none

/-- Whether a step inserts a key. -/
def inserts {α : Type} (step : Step α) : Bool := step.key?.isSome

/-- The set after a step. -/
def apply {α : Type} [Ord α] (s : OrderedSet α) : Step α → OrderedSet α
  | insert a => (s.insert a).2
  | clear => .empty

end Step

section Keys

variable {α : Type}

/-- The keys that steps insert behind the last clearing, in order, as often
as they are inserted. -/
def sinceClear (steps : List (Step α)) : List α :=
  (steps.reverse.takeWhile Step.inserts).reverse.filterMap Step.key?

theorem sinceClear_concat_insert (steps : List (Step α)) (a : α) :
    sinceClear (steps ++ [.insert a]) = sinceClear steps ++ [a] := by
  have hinserts : (Step.insert a).inserts = true := rfl
  rw [sinceClear, List.reverse_concat, List.takeWhile_cons_of_pos hinserts, List.reverse_cons,
    List.filterMap_append, sinceClear]
  rfl

theorem sinceClear_concat_clear (steps : List (Step α)) : sinceClear (steps ++ [.clear]) = [] := by
  have hinserts : ¬ (Step.clear : Step α).inserts = true := Bool.false_ne_true
  rw [sinceClear, List.reverse_concat, List.takeWhile_cons_of_neg hinserts]
  rfl

end Keys

variable {α : Type} [Ord α] {s : OrderedSet α} {a b : α} {i : Nat}

/-! ## Places -/

/-- **A place stands for its key** whatever is inserted after it. -/
theorem get?_insert_of_eq_some [Std.TransOrd α] (hi : s.get? i = some b) (a : α) :
    (s.insert a).2.get? i = some b := by
  cases hold : s.contains a with
  | true =>
    obtain ⟨j, hj⟩ := insert_of_contains hold
    rw [hj]
    exact hi
  | false =>
    have hlt : i < s.size := (Array.getElem?_eq_some_iff.mp hi).1
    rw [get?_insert_of_not_contains hold, if_neg (Nat.ne_of_lt hlt)]
    exact hi

theorem get?_insertAll_of_eq_some [Std.TransOrd α] (hi : s.get? i = some b) (later : List α) :
    (s.insertAll later).get? i = some b := by
  induction later generalizing s with
  | nil => exact hi
  | cons a later ih => exact ih (get?_insert_of_eq_some hi a)

namespace Consistent

variable [Std.TransOrd α] (hs : s.Consistent)
include hs

/-- The place that an insertion answers with is that of its key. -/
theorem get?_place_insert (a : α) : (s.insert a).2.get? (s.insert a).1.1 = some a := by
  cases hold : s.contains a with
  | true =>
    -- the answer is what the index had for the key
    have hplaced : (s.place? a).isSome = true :=
      Std.TreeMap.isSome_getElem?_eq_contains.trans hold
    obtain ⟨i, hi⟩ := Option.isSome_iff_exists.mp hplaced
    have hinsert : s.insert a = ((i, false), s) := by
      rw [place?] at hi
      simp only [OrderedSet.insert, hi]
    rw [hinsert]
    exact (hs.place_iff i a).mp hi
  | false =>
    rw [get?_insert_of_not_contains hold, insert_of_not_contains hold]
    exact if_pos rfl

/-- A key is new if it is not entered. -/
theorem new_insert_iff (a : α) : (s.insert a).1.2 = true ↔ a ∉ s.toList := by
  rw [← hs.contains_iff]
  cases hold : s.contains a with
  | true =>
    obtain ⟨i, hi⟩ := insert_of_contains hold
    rw [hi]
    exact ⟨nofun, fun h => absurd rfl h⟩
  | false =>
    rw [insert_of_not_contains hold]
    exact ⟨nofun, fun _ => rfl⟩

end Consistent

/-! ## Runs -/

/-- The set after steps, in order. -/
def afterAll (s : OrderedSet α) (steps : List (Step α)) : OrderedSet α := steps.foldl Step.apply s

theorem afterAll_concat (s : OrderedSet α) (steps : List (Step α)) (step : Step α) :
    s.afterAll (steps ++ [step]) = step.apply (s.afterAll steps) := by
  rw [afterAll, List.foldl_append, afterAll]
  rfl

/-- **A step keeps the two sides of a set together.** -/
theorem Consistent.apply [Std.TransOrd α] [Std.LawfulEqOrd α] (hs : s.Consistent)
    (step : Step α) : (step.apply s).Consistent := by
  cases step with
  | insert a => exact hs.insert a
  | clear => exact consistent_empty

theorem Consistent.afterAll [Std.TransOrd α] [Std.LawfulEqOrd α] (hs : s.Consistent)
    (steps : List (Step α)) : (s.afterAll steps).Consistent := by
  induction steps generalizing s with
  | nil => exact hs
  | cons step steps ih => exact ih (hs.apply step)

/-- **A run comes to the keys since the last clearing**, inserted one after
another. -/
theorem afterAll_eq (steps : List (Step α)) :
    (empty : OrderedSet α).afterAll steps = empty.insertAll (sinceClear steps) := by
  induction steps using List.reverseRecOn with
  | nil => rfl
  | append_singleton steps step ih =>
    rw [afterAll_concat, ih]
    cases step with
    | insert a =>
      rw [sinceClear_concat_insert, insertAll, insertAll, List.foldl_append]
      rfl
    | clear =>
      rw [sinceClear_concat_clear]
      rfl

/-- A set keeps the keys given: it has each of them once, where it is given
first, and its index tells the places of these and of no others. An insertion
answers with a place that stands for the key from then on, whatever is
inserted later, and with whether the key is none of those given. -/
structure Keeps [BEq α] (s : OrderedSet α) (keys : List α) : Prop where
  distinct : s.toList.Nodup
  inOrder : s.toList = keys.eraseDups
  placed : ∀ a i, s.place? a = some i ↔ s.toList[i]? = some a
  stands : ∀ a later, ((s.insert a).2.insertAll later).get? (s.insert a).1.1 = some a
  tells : ∀ a, (s.insert a).1.2 = true ↔ a ∉ keys

/-- **Ordered sets are lists without repetitions.** After any run, a set
keeps the keys inserted since it was last cleared. -/
theorem keeps_afterAll [BEq α] [LawfulBEq α] [Std.TransOrd α] [Std.LawfulEqOrd α]
    (steps : List (Step α)) : ((empty : OrderedSet α).afterAll steps).Keeps (sinceClear steps) := by
  have hs : ((empty : OrderedSet α).afterAll steps).Consistent := consistent_empty.afterAll steps
  have hkeys : ((empty : OrderedSet α).afterAll steps).toList = (sinceClear steps).eraseDups := by
    rw [afterAll_eq, toList_insertAll_empty]
  refine ⟨hs.nodup, hkeys, fun a i => ?_, fun a later => ?_, fun a => ?_⟩
  · rw [hs.place_iff, get?, toList, Array.getElem?_toList]
  · exact get?_insertAll_of_eq_some (hs.get?_place_insert a) later
  · rw [hs.new_insert_iff, hkeys, List.mem_eraseDups]

/-- Two names, of which one comes again, after a set was cleared of both. -/
theorem keeps_afterAll_clearedNames :
    Std.TransOrd String ∧ Std.LawfulEqOrd String ∧ LawfulBEq String ∧
      ((empty : OrderedSet String).afterAll
        [.insert "io", .insert "math", .clear, .insert "math", .insert "io", .insert "math"]).Keeps
          ["math", "io", "math"] :=
  ⟨inferInstance, inferInstance, inferInstance, keeps_afterAll _⟩

end OrderedSet

end BasicLexer
