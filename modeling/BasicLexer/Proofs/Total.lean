import BasicLexer.Input.Feed

/-!
# Totals — a measure summed up over a list

Fewer elements measure no more, and one that is left out leaves room for
what it measures (`add_total_filter_le`).
-/

namespace BasicLexer

theorem total_append {α : Type} (measure : α → Nat) (first second : List α) :
    total measure (first ++ second) = total measure first + total measure second := by
  induction first with
  | nil => simp only [List.nil_append, total, Nat.zero_add]
  | cons a rest ih => simp only [List.cons_append, total, ih, Nat.add_assoc]

theorem total_map {α β : Type} (measure : β → Nat) (f : α → β) (list : List α) :
    total measure (list.map f) = total (fun a => measure (f a)) list := by
  induction list with
  | nil => rfl
  | cons a rest ih => simp only [List.map_cons, total, ih]

/-- Fewer elements measure no more. -/
theorem total_le_of_sublist {α : Type} (measure : α → Nat) {fewer all : List α}
    (h : List.Sublist fewer all) : total measure fewer ≤ total measure all := by
  induction h with
  | slnil => exact Nat.le_refl _
  | cons a _ ih => simp only [total]; omega
  | cons_cons a _ ih => simp only [total]; omega

theorem total_le_total {α : Type} {measure other : α → Nat} {list : List α}
    (hle : ∀ a ∈ list, measure a ≤ other a) : total measure list ≤ total other list := by
  induction list with
  | nil => exact Nat.le_refl 0
  | cons a rest ih =>
    obtain ⟨ha, hrest⟩ := List.forall_mem_cons.mp hle
    have hsum := ih hrest
    simp only [total]
    omega

/-- So many elements that measure so much at most. -/
theorem total_le_mul {α : Type} {measure : α → Nat} {list : List α} {bound : Nat}
    (hle : ∀ a ∈ list, measure a ≤ bound) : total measure list ≤ list.length * bound := by
  induction list with
  | nil => exact Nat.zero_le _
  | cons a rest ih =>
    obtain ⟨ha, hrest⟩ := List.forall_mem_cons.mp hle
    have hsum := ih hrest
    simp only [total, List.length_cons, Nat.succ_mul]
    omega

theorem length_flatMap_eq_total {α β : Type} (f : α → List β) (list : List α) :
    (list.flatMap f).length = total (fun a => (f a).length) list := by
  induction list with
  | nil => rfl
  | cons a rest ih => simp only [List.flatMap_cons, List.length_append, total, ih]

/-- What some elements measure, with one of the others, is no more than
what they all do. -/
theorem add_total_filter_le {α : Type} (measure : α → Nat) {p q : α → Bool} {list : List α} {a : α}
    (himp : ∀ b, p b = true → q b = true) (hmem : a ∈ list.filter q) (hp : p a = false) :
    measure a + total measure (list.filter p) ≤ total measure (list.filter q) := by
  obtain ⟨before, after, hsplit⟩ := List.append_of_mem hmem
  -- those of `p` are found among those of `q`, and `a` is not one of them
  have htwice : list.filter p = (list.filter q).filter p := by
    rw [List.filter_filter]
    refine List.filter_congr fun b _ => ?_
    cases hb : p b with
    | true => rw [himp b hb]; rfl
    | false => rfl
  have hrest : List.Sublist (list.filter p) (before ++ after) := by
    rw [htwice, hsplit, List.filter_append, List.filter_cons_of_neg (by rw [hp]; exact nofun)]
    exact List.filter_sublist.append List.filter_sublist
  have hsum := total_le_of_sublist measure hrest
  simp only [hsplit, total_append, total] at hsum ⊢
  omega

end BasicLexer
