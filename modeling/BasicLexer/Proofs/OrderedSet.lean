import BasicLexer.OrderedSet

/-!
# Ordered sets — what an insertion makes of the keys

A key that is there leaves the set as it is, a new one goes to the end;
either way the keys are those that were there and the one inserted. The
index of the keys and the list of entries answer for each other
(`OrderedSet.Consistent`), so no key is entered twice.
-/

namespace BasicLexer

namespace OrderedSet

variable {α : Type} [Ord α] {s : OrderedSet α} {a b : α}

theorem contains_empty : (empty : OrderedSet α).contains a = false := by
  simp [contains, empty]

/-- An old key changes nothing. -/
theorem insert_of_contains [Std.TransOrd α] (hold : s.contains a = true) :
    ∃ i, s.insert a = ((i, false), s) := by
  obtain ⟨i, hi⟩ := Option.isSome_iff_exists.mp
    (Std.TreeMap.isSome_getElem?_eq_contains.trans hold)
  exact ⟨i, by simp only [insert, hi]⟩

/-- A new key goes to the end. -/
theorem insert_of_not_contains [Std.TransOrd α] (hnew : s.contains a = false) :
    s.insert a =
      ((s.entries.size, true), ⟨s.entries.push a, s.places.insert a s.entries.size⟩) := by
  have hplace : s.places[a]? = none := Std.TreeMap.getElem?_eq_none_of_contains_eq_false hnew
  simp only [insert, hplace]

/-- There its index stands for it, and every index used before for what
it did. -/
theorem get?_insert_of_not_contains [Std.TransOrd α] (hnew : s.contains a = false) (i : Nat) :
    (s.insert a).2.get? i = if i = s.size then some a else s.get? i := by
  rw [insert_of_not_contains hnew]
  exact Array.getElem?_push

theorem size_insert_of_not_contains [Std.TransOrd α] (hnew : s.contains a = false) :
    (s.insert a).2.size = s.size + 1 := by
  rw [insert_of_not_contains hnew]
  exact Array.size_push a

/-- **The keys after an insertion** are those before it and the one
inserted. -/
theorem contains_insert [Std.TransOrd α] [Std.LawfulEqOrd α] :
    (s.insert a).2.contains b = true ↔ b = a ∨ s.contains b = true := by
  cases hold : s.contains a with
  | true =>
    obtain ⟨i, hi⟩ := insert_of_contains hold
    rw [hi]
    constructor
    · exact Or.inr
    · rintro (rfl | hb)
      · exact hold
      · exact hb
  | false =>
    rw [insert_of_not_contains hold]
    simp only [contains, Std.TreeMap.contains_insert, Bool.or_eq_true, beq_iff_eq,
      Std.LawfulEqOrd.compare_eq_iff_eq]
    rw [eq_comm]

theorem toList_insert_of_not_contains [Std.TransOrd α] (hnew : s.contains a = false) :
    (s.insert a).2.toList = s.toList ++ [a] := by
  rw [insert_of_not_contains hnew]
  exact Array.toList_push

/-- Insert keys, one after another. -/
def insertAll (s : OrderedSet α) (keys : List α) : OrderedSet α :=
  keys.foldl (fun s a => (s.insert a).2) s

/-! ## The two sides of a set -/

theorem place?_insert_self [Std.TransOrd α] (hnew : s.contains a = false) :
    (s.insert a).2.place? a = some s.size := by
  rw [insert_of_not_contains hnew]
  exact Std.TreeMap.getElem?_insert_self

theorem place?_insert_of_ne [Std.TransOrd α] [Std.LawfulEqOrd α] (hnew : s.contains a = false)
    (hother : b ≠ a) : (s.insert a).2.place? b = s.place? b := by
  rw [insert_of_not_contains hnew]
  have hcompare : compare a b ≠ .eq := fun h =>
    hother (Std.LawfulEqOrd.compare_eq_iff_eq.mp h).symm
  exact Std.TreeMap.getElem?_insert.trans (if_neg hcompare)

/-- The index of the keys and the list of entries tell the same. -/
structure Consistent (s : OrderedSet α) : Prop where
  place_iff : ∀ i a, s.place? a = some i ↔ s.get? i = some a

theorem consistent_empty [Std.TransOrd α] : (empty : OrderedSet α).Consistent where
  place_iff i a := by
    have hplace : (empty : OrderedSet α).place? a = none := Std.TreeMap.getElem?_emptyc
    have hentry : (empty : OrderedSet α).get? i = none := Array.getElem?_empty
    rw [hplace, hentry]
    exact ⟨nofun, nofun⟩

namespace Consistent

/-- A key is in the set if it is entered. -/
theorem contains_iff [Std.TransOrd α] (hs : s.Consistent) :
    s.contains a = true ↔ a ∈ s.toList := by
  have hplaced : s.contains a = true ↔ ∃ i, s.place? a = some i := by
    rw [contains, ← Std.TreeMap.isSome_getElem?_eq_contains]
    exact Option.isSome_iff_exists
  rw [hplaced, List.mem_iff_getElem?]
  exact exists_congr fun i => by rw [hs.place_iff, get?, toList, Array.getElem?_toList]

/-- A key is entered once. -/
theorem get?_inj (hs : s.Consistent) {i j : Nat} (hi : s.get? i = some a)
    (hj : s.get? j = some a) : i = j := by
  have hplace := (hs.place_iff i a).mpr hi
  rw [(hs.place_iff j a).mpr hj] at hplace
  exact (Option.some.inj hplace).symm

theorem nodup (hs : s.Consistent) : s.toList.Nodup := by
  have hentry {i : Nat} (hi : i < s.toList.length) : s.get? i = some s.toList[i] := by
    rw [get?, ← Array.getElem?_toList]
    exact List.getElem?_eq_getElem hi
  refine List.pairwise_iff_getElem.mpr fun i j hi hj hij heq => ?_
  have hfirst := hentry hi
  rw [heq] at hfirst
  exact absurd (hs.get?_inj hfirst (hentry hj)) (Nat.ne_of_lt hij)

/-- **An insertion keeps the two sides together.** -/
theorem insert [Std.TransOrd α] [Std.LawfulEqOrd α] (hs : s.Consistent) (a : α) :
    (s.insert a).2.Consistent := by
  cases hold : s.contains a with
  | true =>
    obtain ⟨i, hi⟩ := insert_of_contains hold
    rw [hi]
    exact hs
  | false =>
    refine ⟨fun i b => ?_⟩
    rw [get?_insert_of_not_contains hold]
    by_cases hb : b = a
    · -- the new key is nowhere but at the end
      subst hb
      rw [place?_insert_self hold]
      by_cases hi : i = s.size
      · rw [if_pos hi, hi]
        exact iff_of_true rfl rfl
      · rw [if_neg hi, ← hs.place_iff]
        have hunplaced : s.place? b = none :=
          Std.TreeMap.getElem?_eq_none_of_contains_eq_false hold
        rw [hunplaced]
        exact ⟨fun h => absurd (Option.some.inj h).symm hi, nofun⟩
    · -- and no other key is at the end
      rw [place?_insert_of_ne hold hb]
      by_cases hi : i = s.size
      · rw [if_pos hi, hs.place_iff, hi, get?, size, Array.getElem?_size]
        exact ⟨nofun, fun h => absurd (Option.some.inj h).symm hb⟩
      · rw [if_neg hi]
        exact hs.place_iff i b

/-- **The keys after insertions** are those before them and then the others
in the order they are first given. -/
theorem toList_insertAll [BEq α] [LawfulBEq α] [Std.TransOrd α] [Std.LawfulEqOrd α]
    (hs : s.Consistent) (keys : List α) :
    (s.insertAll keys).toList = s.toList ++ (keys.removeAll s.toList).eraseDups := by
  induction keys generalizing s with
  | nil => simp [insertAll]
  | cons a keys ih =>
    have hrest := ih (hs.insert a)
    rw [insertAll, List.foldl_cons, ← insertAll, hrest]
    cases hold : s.contains a with
    | true =>
      obtain ⟨i, hi⟩ := insert_of_contains hold
      have hmem := hs.contains_iff.mp hold
      rw [hi, List.removeAll, List.removeAll, List.filter_cons_of_neg (by simpa using hmem)]
    | false =>
      have hmem : a ∉ s.toList := fun h => by
        rw [hs.contains_iff.mpr h] at hold
        cases hold
      rw [toList_insert_of_not_contains hold, List.removeAll, List.removeAll,
        List.filter_cons_of_pos (by simpa using hmem), List.eraseDups_cons, List.filter_filter,
        List.append_assoc, List.singleton_append]
      congr 3
      refine List.filter_congr fun b _ => ?_
      rw [Bool.eq_iff_iff]
      simp [not_or, and_comm]

end Consistent

/-- The keys inserted into no keys are those given, each where it is first
given. -/
theorem toList_insertAll_empty [BEq α] [LawfulBEq α] [Std.TransOrd α] [Std.LawfulEqOrd α]
    (keys : List α) : ((empty : OrderedSet α).insertAll keys).toList = keys.eraseDups := by
  have hnone : (empty : OrderedSet α).toList = [] := rfl
  have hall : keys.removeAll [] = keys := by simp [List.removeAll]
  rw [consistent_empty.toList_insertAll keys, hnone, hall, List.nil_append]

end OrderedSet

end BasicLexer
