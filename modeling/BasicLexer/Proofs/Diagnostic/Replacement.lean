import Mathlib.Data.List.Infix
import BasicLexer.Diagnostic.Message

/-!
# Diagnostics — replacing a pattern

A template is filled by replacing a pattern wherever it stands in a text, and
the text may have been made from parts, with the pattern at places that are
known (`Message.spread`). If the pattern's first character is not seen in it
again, no two occurrences overlap. So the places are what is replaced exactly
if the text has the pattern no more often than there are places, or if the
replacement is the pattern itself (`Message.replaceFrom_spread_iff`).
-/

namespace BasicLexer

namespace Message

/-- How often a pattern stands in a text. -/
def occurrences (pattern text : List Char) : Nat := text.tails.countP pattern.isPrefixOf

/-- A text with something put in at every place that is left open. -/
def spread (put : List Char) (marks : List (Option Char)) : List Char :=
  marks.flatMap fun mark => mark.elim put fun c => [c]

section Patterns

variable {first : Char} {body put text rest : List Char} {marks : List (Option Char)}

/-! ## Occurrences -/

theorem occurrences_cons (pattern : List Char) (c : Char) (rest : List Char) :
    occurrences pattern (c :: rest) =
      occurrences pattern rest + if pattern.isPrefixOf (c :: rest) then 1 else 0 := by
  rw [occurrences, List.tails_cons, List.countP_cons]
  rfl

theorem occurrences_nil : occurrences (first :: body) [] = 0 := rfl

/-- The pattern begins with its first character only. -/
theorem isPrefixOf_cons_of_ne {c : Char} (hc : c ≠ first) :
    (first :: body).isPrefixOf (c :: rest) = false := by
  rw [List.isPrefixOf_cons_cons, beq_false_of_ne hc.symm, Bool.false_and]

/-- Characters other than its first bring no occurrence with them. -/
theorem occurrences_append_of_notMem {other : List Char} (hother : first ∉ other) :
    occurrences (first :: body) (other ++ rest) = occurrences (first :: body) rest := by
  induction other with
  | nil => rfl
  | cons c other ih =>
    obtain ⟨hc, hother⟩ := not_or.mp (mt List.mem_cons.mpr hother)
    rw [List.cons_append, occurrences_cons, isPrefixOf_cons_of_ne (Ne.symm hc), ih hother]
    rfl

variable (hbody : first ∉ body)

include hbody in
/-- An occurrence in front is one more. -/
theorem occurrences_pattern_append :
    occurrences (first :: body) (first :: body ++ rest) =
      occurrences (first :: body) rest + 1 := by
  have hhere : (first :: body).isPrefixOf (first :: (body ++ rest)) = true :=
    List.isPrefixOf_iff_prefix.mpr (List.prefix_append _ _)
  rw [List.cons_append, occurrences_cons, hhere, occurrences_append_of_notMem hbody, if_pos rfl]

/-- A character that a pattern does not have ends what may begin with it. -/
theorem isPrefixOf_append_separator {pattern : List Char} {separator : Char}
    (hseparator : separator ∉ pattern) (text rest : List Char) :
    pattern.isPrefixOf (text ++ separator :: rest) = pattern.isPrefixOf text := by
  induction pattern generalizing text with
  | nil => rw [List.isPrefixOf_nil_left, List.isPrefixOf_nil_left]
  | cons d pattern ih =>
    obtain ⟨hd, hpattern⟩ := not_or.mp (mt List.mem_cons.mpr hseparator)
    cases text with
    | nil => exact isPrefixOf_cons_of_ne hd
    | cons c text =>
      rw [List.cons_append, List.isPrefixOf_cons_cons, List.isPrefixOf_cons_cons, ih hpattern]

/-- No occurrence goes over such a character. -/
theorem occurrences_append_separator {separator : Char} (hseparator : separator ∉ first :: body)
    (text rest : List Char) :
    occurrences (first :: body) (text ++ separator :: rest) =
      occurrences (first :: body) text + occurrences (first :: body) rest := by
  induction text with
  | nil =>
    have hne := (not_or.mp (mt List.mem_cons.mpr hseparator)).1
    rw [List.nil_append, occurrences_cons, isPrefixOf_cons_of_ne hne, occurrences_nil,
      Nat.zero_add]
    rfl
  | cons c text ih =>
    have hsame := isPrefixOf_append_separator hseparator (c :: text) rest
    rw [List.cons_append] at hsame ⊢
    rw [occurrences_cons, occurrences_cons, hsame, ih]
    omega

/-! ## Replacing -/

/-- Characters that are passed over are not looked at. -/
theorem replaceFrom_length_append (pattern put passed rest : List Char) :
    replaceFrom pattern put passed.length (passed ++ rest) = replaceFrom pattern put 0 rest := by
  induction passed with
  | nil => rfl
  | cons c passed ih => exact ih

/-- An occurrence in front is replaced. -/
theorem replaceFrom_pattern_append :
    replaceFrom (first :: body) put 0 (first :: body ++ rest) =
      put ++ replaceFrom (first :: body) put 0 rest := by
  have hhere : (first :: body).isPrefixOf (first :: (body ++ rest)) = true :=
    List.isPrefixOf_iff_prefix.mpr (List.prefix_append _ _)
  rw [List.cons_append, replaceFrom, if_pos hhere, List.length_cons, Nat.add_sub_cancel,
    replaceFrom_length_append]

/-- A character where there is none is kept. -/
theorem replaceFrom_cons {pattern : List Char} {c : Char}
    (hnone : pattern.isPrefixOf (c :: rest) = false) :
    replaceFrom pattern put 0 (c :: rest) = c :: replaceFrom pattern put 0 rest := by
  rw [replaceFrom, hnone]
  rfl

/-- A text is empty, has something in front that is looked for, or a character
where there is none of that: what holds of what is left then holds of the
text. -/
theorem front_induction {motive : List Char → Prop} (front? : List Char → Option (List Char))
    (hfront : ∀ text front, front? text = some front → front ≠ [] ∧ front <+: text)
    (nil : motive [])
    (here : ∀ front rest, front? (front ++ rest) = some front → motive rest →
      motive (front ++ rest))
    (other : ∀ c rest, front? (c :: rest) = none → motive rest → motive (c :: rest))
    (text : List Char) : motive text := by
  induction hlength : text.length using Nat.strongRecOn generalizing text with
  | ind length ih =>
    subst hlength
    cases text with
    | nil => exact nil
    | cons c rest =>
      cases hfound : front? (c :: rest) with
      | none => exact other c rest hfound (ih _ (Nat.lt_succ_self _) rest rfl)
      | some front =>
        obtain ⟨hne, after, hafter⟩ := hfront _ _ hfound
        have hpos := List.length_pos_of_ne_nil hne
        have hless : after.length < (c :: rest).length := by
          rw [← hafter, List.length_append]
          omega
        rw [← hafter] at hfound ⊢
        exact here front after hfound (ih _ hless after rfl)

@[elab_as_elim]
theorem pattern_induction {motive : List Char → Prop} (pattern : List Char) (hne : pattern ≠ [])
    (nil : motive []) (here : ∀ rest, motive rest → motive (pattern ++ rest))
    (other : ∀ c rest, pattern.isPrefixOf (c :: rest) = false → motive rest →
      motive (c :: rest)) (text : List Char) : motive text := by
  refine front_induction (fun text => if pattern.isPrefixOf text then some pattern else none)
    (fun text front hfound => ?_) nil (fun front rest hfound => ?_) (fun c rest hnone => ?_) text
  · obtain ⟨hbegins, hsame⟩ := Option.ite_none_right_eq_some.mp hfound
    cases hsame
    exact ⟨hne, List.isPrefixOf_iff_prefix.mp hbegins⟩
  · cases (Option.ite_none_right_eq_some.mp hfound).2
    exact here rest
  · exact other c rest (Bool.eq_false_iff.mpr fun hbegins => by simp [hbegins] at hnone)

/-- A pattern replaced by itself is kept. -/
theorem replaceFrom_self (text : List Char) :
    replaceFrom (first :: body) (first :: body) 0 text = text := by
  induction text using pattern_induction (first :: body) (List.cons_ne_nil _ _) with
  | nil => rfl
  | here rest ih => rw [replaceFrom_pattern_append, ih]
  | other c rest hnone ih => rw [replaceFrom_cons hnone, ih]

include hbody in
/-- Every occurrence makes the text longer by what the replacement has more
than the pattern. -/
theorem length_replaceFrom (put text : List Char) :
    (replaceFrom (first :: body) put 0 text).length +
        occurrences (first :: body) text * (first :: body).length =
      text.length + occurrences (first :: body) text * put.length := by
  induction text using pattern_induction (first :: body) (List.cons_ne_nil _ _) with
  | nil => rw [occurrences_nil, Nat.zero_mul, Nat.zero_mul, replaceFrom]
  | here rest ih =>
    rw [replaceFrom_pattern_append, occurrences_pattern_append hbody, List.length_append,
      List.length_append, Nat.add_mul, Nat.add_mul]
    omega
  | other c rest hnone ih =>
    rw [replaceFrom_cons hnone, occurrences_cons, hnone, if_neg Bool.false_ne_true, Nat.add_zero]
    simp only [List.length_cons] at ih ⊢
    omega

/-! ## Places -/

theorem spread_cons_none (put : List Char) (marks : List (Option Char)) :
    spread put (none :: marks) = put ++ spread put marks := rfl

theorem spread_cons_some (put : List Char) (c : Char) (marks : List (Option Char)) :
    spread put (some c :: marks) = c :: spread put marks := rfl

theorem spread_singleton_none (put : List Char) : spread put [none] = put := List.append_nil put

theorem spread_append (put : List Char) (marks more : List (Option Char)) :
    spread put (marks ++ more) = spread put marks ++ spread put more := List.flatMap_append

theorem spread_map_some (put text : List Char) : spread put (text.map some) = text := by
  induction text with
  | nil => rfl
  | cons c text ih => rw [List.map_cons, spread_cons_some, ih]

/-- So does every place. -/
theorem length_spread (put put' : List Char) (marks : List (Option Char)) :
    (spread put' marks).length + marks.count none * put.length =
      (spread put marks).length + marks.count none * put'.length := by
  induction marks with
  | nil => rw [List.count_nil, Nat.zero_mul, Nat.zero_mul, spread, spread, List.flatMap_nil,
      List.flatMap_nil]
  | cons mark marks ih =>
    cases mark with
    | none =>
      rw [spread_cons_none, spread_cons_none, List.count_cons_self, List.length_append,
        List.length_append, Nat.add_mul, Nat.add_mul]
      omega
    | some c =>
      rw [spread_cons_some, spread_cons_some, List.count_cons_of_ne (Option.some_ne_none c),
        List.length_cons, List.length_cons]
      omega

include hbody in
/-- The pattern stands at the places, and it may stand elsewhere too. -/
theorem count_le_occurrences (marks : List (Option Char)) :
    marks.count none ≤ occurrences (first :: body) (spread (first :: body) marks) := by
  induction marks with
  | nil => exact Nat.zero_le _
  | cons mark marks ih =>
    cases mark with
    | none =>
      rw [spread_cons_none, occurrences_pattern_append hbody, List.count_cons_self]
      exact Nat.succ_le_succ ih
    | some c =>
      rw [spread_cons_some, occurrences_cons, List.count_cons_of_ne (Option.some_ne_none c)]
      exact Nat.le_add_right_of_le ih

include hbody in
/-- If it stands nowhere else, the places are what is replaced. -/
theorem replaceFrom_spread
    (hcount : occurrences (first :: body) (spread (first :: body) marks) = marks.count none) :
    replaceFrom (first :: body) put 0 (spread (first :: body) marks) = spread put marks := by
  induction marks with
  | nil => rfl
  | cons mark marks ih =>
    cases mark with
    | none =>
      rw [spread_cons_none, occurrences_pattern_append hbody, List.count_cons_self] at hcount
      rw [spread_cons_none, replaceFrom_pattern_append, ih (Nat.succ.inj hcount)]
      rfl
    | some c =>
      rw [spread_cons_some, occurrences_cons,
        List.count_cons_of_ne (Option.some_ne_none c)] at hcount
      have hle := count_le_occurrences hbody marks
      have hnone : (first :: body).isPrefixOf (c :: spread (first :: body) marks) = false := by
        rw [← Bool.not_eq_true]
        intro hbegins
        rw [hbegins, if_pos rfl] at hcount
        omega
      rw [hnone] at hcount
      rw [spread_cons_some, replaceFrom_cons hnone, ih hcount]
      rfl

/-- Text without the pattern's first character is no place: it stands there
whatever is put in. -/
theorem prefix_spread {other : List Char} (hother : first ∉ other) (put : List Char)
    (hbegins : other <+: spread (first :: body) marks) : other <+: spread put marks := by
  induction other generalizing marks with
  | nil => exact List.nil_prefix
  | cons d other ih =>
    obtain ⟨hd, hother⟩ := not_or.mp (mt List.mem_cons.mpr hother)
    cases marks with
    | nil => exact absurd (List.prefix_nil.mp hbegins) (List.cons_ne_nil _ _)
    | cons mark marks =>
      cases mark with
      | none => exact absurd (List.cons_prefix_cons.mp hbegins).1.symm hd
      | some c =>
        obtain ⟨rfl, hmore⟩ := List.cons_prefix_cons.mp hbegins
        exact List.cons_prefix_cons.mpr ⟨rfl, ih hother hmore⟩

include hbody in
/-- A replacement as long as the pattern shows where it was put in. -/
theorem eq_of_replaceFrom_spread (hlength : put.length = (first :: body).length)
    (hsame : replaceFrom (first :: body) put 0 (spread (first :: body) marks) = spread put marks)
    (hcount : occurrences (first :: body) (spread (first :: body) marks) ≠ marks.count none) :
    put = first :: body := by
  induction marks with
  | nil => exact absurd rfl hcount
  | cons mark marks ih =>
    cases mark with
    | none =>
      rw [spread_cons_none, occurrences_pattern_append hbody, List.count_cons_self] at hcount
      rw [spread_cons_none, replaceFrom_pattern_append, spread_cons_none] at hsame
      exact ih (List.append_cancel_left hsame) fun h => hcount (congrArg (· + 1) h)
    | some c =>
      rw [spread_cons_some, occurrences_cons,
        List.count_cons_of_ne (Option.some_ne_none c)] at hcount
      rw [spread_cons_some, spread_cons_some] at hsame
      cases hbegins : (first :: body).isPrefixOf (c :: spread (first :: body) marks) with
      | false =>
        rw [hbegins] at hcount
        rw [replaceFrom_cons hbegins] at hsame
        exact ih (List.cons.inj hsame).2 hcount
      | true =>
        -- the pattern stands here and here is no place, so it stands in both texts
        obtain ⟨after, hafter⟩ := List.isPrefixOf_iff_prefix.mp hbegins
        rw [← hafter, replaceFrom_pattern_append] at hsame
        obtain ⟨rfl, hmore⟩ := List.cons.inj hafter
        have hthere : first :: body <+: first :: spread put marks :=
          List.cons_prefix_cons.mpr ⟨rfl, prefix_spread hbody put ⟨after, hmore⟩⟩
        have hput : put <+: first :: spread put marks := ⟨_, hsame⟩
        exact (List.prefix_of_prefix_length_le hput hthere hlength.le).eq_of_length hlength

include hbody in
/-- **What is replaced.** The places are filled, and nothing else is touched,
exactly if the text has the pattern as often as there are places, or if the
pattern is replaced by itself. -/
theorem replaceFrom_spread_iff :
    replaceFrom (first :: body) put 0 (spread (first :: body) marks) = spread put marks ↔
      put = first :: body ∨
        occurrences (first :: body) (spread (first :: body) marks) = marks.count none := by
  constructor
  · intro hsame
    by_cases hcount :
      occurrences (first :: body) (spread (first :: body) marks) = marks.count none
    · exact .inr hcount
    · refine .inl (eq_of_replaceFrom_spread hbody ?_ hsame hcount)
      -- every occurrence that is no place would make the text longer or shorter
      have hplaces := length_spread (first :: body) put marks
      have hall := length_replaceFrom hbody put (spread (first :: body) marks)
      rw [hsame] at hall
      have hle := count_le_occurrences hbody marks
      obtain ⟨extra, hextra⟩ := Nat.exists_eq_add_of_le hle
      rw [hextra, Nat.add_mul, Nat.add_mul] at hall
      have hproduct : extra * put.length = extra * (first :: body).length := by omega
      exact Nat.eq_of_mul_eq_mul_left (by omega) hproduct
  · rintro (rfl | hcount)
    · exact replaceFrom_self _
    · exact replaceFrom_spread hbody hcount

end Patterns

end Message

end BasicLexer
