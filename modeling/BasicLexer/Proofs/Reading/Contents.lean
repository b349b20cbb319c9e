import Mathlib.Data.List.Find
import BasicLexer.Proofs.Reading.Grammar

/-!
# Reading — tokens apart from their places

What the tokens of a line say, and what one of them is refused for, is a
matter of its bytes alone, wherever they stand; and a newline at its end
makes no difference (`Grammar.contents_scan`). No token goes on through a
newline: where one comes right after the first word of a compound, it is
among the blanks before a second word that is not there.
-/

namespace BasicLexer

/-- What a token says: all but its place. -/
def Token.content (t : Token) : Kind × String × Int32 := (t.kind, t.text, t.value)

namespace Bytes

/-- Bytes are others, or the others with a newline at the end. -/
def Ended (bytes ended : Bytes) : Prop := ended = bytes ∨ ended = bytes ++ [Byte.newline]

namespace Ended

variable {bytes ended : Bytes} {p : Byte → Bool}

theorem cons (b : Byte) (hended : Ended bytes ended) : Ended (b :: bytes) (b :: ended) := by
  rcases hended with rfl | rfl
  · exact .inl rfl
  · exact .inr rfl

theorem subset (hended : Ended bytes ended) : bytes ⊆ ended := by
  rcases hended with rfl | rfl
  · exact List.Subset.refl _
  · exact List.subset_append_left _ _

/-- A run of a class without the newline is the same. -/
theorem takeWhile_eq (hp : p Byte.newline = false) (hended : Ended bytes ended) :
    ended.takeWhile p = bytes.takeWhile p := by
  rcases hended with rfl | rfl
  · rfl
  induction bytes with
  | nil => rw [List.nil_append, List.takeWhile_cons, hp]; rfl
  | cons b bytes ih => rw [List.cons_append, List.takeWhile_cons, List.takeWhile_cons, ih]

/-- Behind it are the same bytes, but for the end. -/
theorem dropWhile (hp : p Byte.newline = false) (hended : Ended bytes ended) :
    Ended (bytes.dropWhile p) (ended.dropWhile p) := by
  rcases hended with rfl | rfl
  · exact .inl rfl
  induction bytes with
  | nil => rw [List.nil_append, List.dropWhile_cons, hp]; exact .inr rfl
  | cons b bytes ih =>
    rw [List.cons_append, List.dropWhile_cons, List.dropWhile_cons]
    split
    · exact ih
    · exact .inr rfl

/-- So they are behind any number of bytes that are there. -/
theorem drop {n : Nat} (hn : n ≤ bytes.length) (hended : Ended bytes ended) :
    Ended (bytes.drop n) (ended.drop n) := by
  rcases hended with rfl | rfl
  · exact .inl rfl
  · exact .inr (List.drop_append_of_le_length hn)

/-- The blanks in front are the same where anything comes after them.
Where nothing does, nothing comes after them and the newline either. -/
theorem blanks (hended : Ended bytes ended) :
    ended.takeWhile Byte.isBlank = bytes.takeWhile Byte.isBlank ∧
        Ended (bytes.dropWhile Byte.isBlank) (ended.dropWhile Byte.isBlank) ∨
      bytes.dropWhile Byte.isBlank = [] ∧ ended.dropWhile Byte.isBlank = [] := by
  rcases hended with rfl | rfl
  · exact .inl ⟨rfl, .inl rfl⟩
  induction bytes with
  | nil => exact .inr ⟨rfl, rfl⟩
  | cons b bytes ih =>
    by_cases hb : b.isBlank = true
    · simpa only [List.cons_append, List.takeWhile_cons, List.dropWhile_cons, if_pos hb,
        List.cons.injEq, true_and] using ih
    · simp only [List.cons_append, List.takeWhile_cons, List.dropWhile_cons, if_neg hb]
      exact .inl ⟨trivial, .inr rfl⟩

/-- Bytes that hold no newline come first in both or in neither. -/
theorem isPrefixOf_eq {start : Bytes} (hstart : Byte.newline ∉ start) (hended : Ended bytes ended) :
    start.isPrefixOf ended = start.isPrefixOf bytes := by
  rcases hended with rfl | rfl
  · rfl
  induction start generalizing bytes with
  | nil => rfl
  | cons c start ih =>
    obtain ⟨hc, hrest⟩ := not_or.mp (mt List.mem_cons.mpr hstart)
    cases bytes with
    | nil =>
      have hne : (c == Byte.newline) = false := beq_eq_false_iff_ne.mpr (Ne.symm hc)
      simp [List.isPrefixOf, hne]
    | cons b bytes => rw [List.cons_append, List.isPrefixOf, List.isPrefixOf, ih hrest]

end Ended

end Bytes

namespace Grammar

open Bytes

section Endings

variable {rest ended : Bytes} (b : Byte) (hended : Ended rest ended)

include hended

theorem operator?_of_ended : operator? (b :: ended) = operator? (b :: rest) :=
  List.find?_congr fun o _ => (hended.cons b).isPrefixOf_eq (by cases o <;> decide)

theorem marker?_of_ended : marker? (b :: ended) = marker? (b :: rest) := by
  have hmarkers : ∀ m ∈ markers, Byte.newline ∉ m.1 := by decide
  rw [marker?, marker?,
    List.find?_congr fun m hm => (hended.cons b).isPrefixOf_eq (hmarkers m hm)]

theorem digitRun_of_ended (radix : Radix) : digitRun radix ended = digitRun radix rest :=
  hended.takeWhile_eq (by cases radix <;> decide)

theorem figure_of_ended : figure b ended = figure b rest := by
  have htaken := taken_figure_le b rest
  unfold figure at *
  rw [marker?_of_ended b hended]
  split
  · rename_i radix hmarker
    -- the marker's second byte is there, so a newline comes after it
    rw [hmarker] at htaken
    have hpos : 1 ≤ rest.length := Nat.le_trans (Nat.le_add_right _ _) htaken
    rw [digitRun_of_ended (hended.drop hpos)]
  · rw [digitRun_of_ended hended]

theorem wordRun_of_ended : wordRun ended = wordRun rest := hended.takeWhile_eq (by decide)

/-- The second word is the same. -/
theorem secondRun_of_ended : secondRun ended = secondRun rest := by
  have hafter : Ended (rest.dropWhile Byte.isWord) (ended.dropWhile Byte.isWord) :=
    hended.dropWhile (by decide)
  unfold secondRun
  rcases hafter.blanks with ⟨-, hsecond⟩ | ⟨hnone, hnone'⟩
  · exact hsecond.takeWhile_eq (by decide)
  · rw [hnone, hnone']

/-- Where there is one, so are the blanks before it. -/
theorem gap_of_ended (hsecond : secondRun rest ≠ []) : gap ended = gap rest := by
  have hafter : Ended (rest.dropWhile Byte.isWord) (ended.dropWhile Byte.isWord) :=
    hended.dropWhile (by decide)
  rcases hafter.blanks with ⟨hgap, -⟩ | ⟨hnone, -⟩
  · exact hgap
  · exact absurd (by rw [secondRun, hnone]; rfl) hsecond

theorem word_of_ended : word b ended = word b rest := by
  unfold word
  rw [wordRun_of_ended hended, secondRun_of_ended hended]
  by_cases hsecond : secondRun rest = []
  · have hnone : Word.keyword? [] = none := by decide
    simp only [hsecond, hnone, Option.bind_none]
  · rw [gap_of_ended hended hsecond]

theorem item_of_ended : item b ended = item b rest := by
  rw [item, item, operator?_of_ended b hended, figure_of_ended b hended, word_of_ended b hended]

theorem refusal?_of_ended (options : Options) :
    refusal? options b ended = refusal? options b rest := by
  rw [refusal?, refusal?, figure_of_ended b hended, wordRun_of_ended hended,
    secondRun_of_ended hended]

end Endings

/-- What tokens say, and what one of them is refused for. -/
def contents (scanned : List Token × Option Cause) :
    List (Kind × String × Int32) × Option Cause :=
  (scanned.1.map Token.content, scanned.2)

/-- A byte that comes first stays first. -/
theorem cons_of_ended {b : Byte} {column : Nat} {rest shown' : Shown}
    (hended : Ended (Shown.bytes ((b, column) :: rest)) shown'.bytes) :
    ∃ column' rest', shown' = (b, column') :: rest' ∧ Ended rest.bytes (Shown.bytes rest') := by
  have hcons : ∃ bytes, shown'.bytes = b :: bytes ∧ Ended rest.bytes bytes := by
    rcases hended with hsame | hnewline
    · exact ⟨_, hsame, .inl rfl⟩
    · exact ⟨_, hnewline, .inr rfl⟩
  obtain ⟨bytes, hbytes, hrest⟩ := hcons
  obtain ⟨⟨c, column'⟩, rest', rfl, rfl, rfl⟩ := List.map_eq_cons_iff.mp hbytes
  exact ⟨column', rest', rfl, hrest⟩

/-- **What a line says depends on its bytes alone**, and not on a newline
at its end. -/
theorem contents_scan (options : Options) (last last' : Nat) {shown shown' : Shown}
    (hended : Ended shown.bytes shown'.bytes) :
    contents (scan options last' shown') = contents (scan options last shown) := by
  fun_induction scan options last shown generalizing shown' with
  | case1 =>
    have hblank : shown'.dropWhile (fun sight => sight.1.isBlank) = [] := by
      rcases hended with hnil | hnewline
      · rw [List.map_eq_nil_iff.mp hnil, List.dropWhile_nil]
      · obtain ⟨sight, rest, rfl, hb, hrest⟩ := List.map_eq_cons_iff.mp hnewline
        rw [List.map_eq_nil_iff.mp hrest, List.dropWhile_cons, hb]
        rfl
    rw [scan_of_end options last' hblank]
    rfl
  | case2 b column rest hb ih =>
    obtain ⟨column', rest', rfl, hrest⟩ := cons_of_ended hended
    rw [scan, if_pos hb]
    exact ih hrest
  | case3 b column rest hb cause hfirst =>
    obtain ⟨column', rest', rfl, hrest⟩ := cons_of_ended hended
    have hrefused : outcome options b column' rest' = .error cause := by
      rw [outcome_eq_error, refusal?_of_ended b hrest]
      exact outcome_eq_error.mp hfirst
    rw [scan_of_cons options last' (by rw [List.dropWhile_cons, if_neg hb]), hrefused]
  | case4 b column rest hb token after hfirst next =>
    rename_i ih
    obtain ⟨column', rest', rfl, hrest⟩ := cons_of_ended hended
    obtain ⟨hkept, rfl, rfl⟩ := outcome_eq_ok.mp hfirst
    let found := item b (Shown.bytes rest)
    have hfound : outcome options b column' rest' =
        .ok (found.token column', rest'.drop found.taken) := by
      rw [outcome_eq_ok, refusal?_of_ended b hrest, item_of_ended b hrest]
      exact ⟨hkept, rfl, rfl⟩
    have hafter : Ended (Shown.bytes (rest.drop found.taken))
        (Shown.bytes (rest'.drop found.taken)) := by
      rw [Shown.bytes_drop, Shown.bytes_drop]
      exact hrest.drop (taken_item_le b _)
    rw [scan_of_cons options last' (by rw [List.dropWhile_cons, if_neg hb]), hfound]
    have hmore := ih hafter
    simp only [contents, Prod.mk.injEq] at hmore ⊢
    exact ⟨congrArg (_ :: ·) hmore.1, hmore.2⟩

end Grammar

end BasicLexer
