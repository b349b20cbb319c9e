import BasicLexer.Proofs.Reading.Conformity

/-!
# Reading — numbers as they are written

A number is written as digits of its base with underscores among them, in
base ten behind a first digit and in the others behind a marker:
`Numeral.Spells`. Before a byte that does not go on with it, the grammar
makes of it a figure of that base and those digits
(`Numeral.figure_of_spells`), whose value is the number the digits write, in
32 bits and with a sign (`Grammar.Figure.toInt_value`).
-/

namespace BasicLexer

open Grammar

namespace Numeral

/-! ## Spellings -/

/-- Digits of a base, and what is written for them: the digits, and any
number of underscores anywhere. -/
inductive Gapped (radix : Radix) : Bytes → Bytes → Prop
  | nil : Gapped radix [] []
  | digit {run digits : Bytes} {d : Byte} (hdigit : radix.isDigit d = true)
    (hrest : Gapped radix run digits) : Gapped radix (d :: run) (d :: digits)
  | gap {run digits : Bytes} (hrest : Gapped radix run digits) :
    Gapped radix (Byte.underscore :: run) digits

/-- What is written for a number of a base and of the digits given. In base
ten there is a digit, and the first byte is one; in the other bases there may
be none behind the marker. -/
inductive Spells : Radix → Bytes → Bytes → Prop
  | decimal {run digits : Bytes} {d : Byte} (hdigit : d.isDigit = true)
    (hrest : Gapped .decimal run digits) : Spells .decimal (d :: run) (d :: digits)
  | hex {run digits : Bytes} {x : Byte} (hx : x = 120 ∨ x = 88)
    (hrest : Gapped .hex run digits) : Spells .hex (Byte.zero :: x :: run) digits
  | binary {run digits : Bytes} {x : Byte} (hx : x = 98 ∨ x = 66)
    (hrest : Gapped .binary run digits) : Spells .binary (Byte.zero :: x :: run) digits

/-- The underscore is no digit. -/
theorem isDigit_underscore (radix : Radix) : radix.isDigit Byte.underscore = false := by
  cases radix <;> rfl

/-- No digit, and no underscore, is a slash. -/
theorem isDigitOrGap_slash (radix : Radix) : isDigitOrGap radix Byte.slash = false := by
  cases radix <;> rfl

namespace Gapped

variable {radix : Radix} {run digits : Bytes}

theorem all (hgapped : Gapped radix run digits) : ∀ b ∈ run, isDigitOrGap radix b = true := by
  induction hgapped with
  | nil => exact List.forall_mem_nil _
  | digit hdigit _ ih =>
    exact List.forall_mem_cons.mpr ⟨by rw [isDigitOrGap, hdigit, Bool.true_or], ih⟩
  | gap _ ih => exact List.forall_mem_cons.mpr ⟨Bool.or_true _, ih⟩

/-- The digits are what is written without the underscores. -/
theorem digitsOf_eq (hgapped : Gapped radix run digits) : digitsOf run = digits := by
  induction hgapped with
  | nil => rfl
  | @digit run digits d hdigit _ ih =>
    have hd : (d != Byte.underscore) = true := by
      rw [bne_iff_ne]
      rintro rfl
      rw [isDigit_underscore] at hdigit
      cases hdigit
    rw [digitsOf, List.filter_cons, if_pos hd, ← digitsOf, ih]
  | gap _ ih => rw [digitsOf, List.filter_cons_of_neg (by decide), ← digitsOf, ih]

theorem slash_not_mem (hgapped : Gapped radix run digits) : Byte.slash ∉ run := by
  intro hmem
  have hslash := hgapped.all _ hmem
  rw [isDigitOrGap_slash] at hslash
  cases hslash

/-- Before a byte that is neither a digit nor an underscore they are a
run. -/
theorem digitRun_eq (hgapped : Gapped radix run digits) {c : Byte}
    (hstop : isDigitOrGap radix c = false) (rest : Bytes) :
    digitRun radix (run ++ c :: rest) = run := by
  have hc : ¬ isDigitOrGap radix c = true := Bool.eq_false_iff.mp hstop
  rw [digitRun, List.takeWhile_append_of_pos hgapped.all, List.takeWhile_cons_of_neg hc,
    List.append_nil]

/-- Digits alone are written without underscores. -/
theorem of_digits (hdigits : ∀ d ∈ digits, radix.isDigit d = true) :
    Gapped radix digits digits := by
  induction digits with
  | nil => exact .nil
  | cons d digits ih =>
    obtain ⟨hd, hrest⟩ := List.forall_mem_cons.mp hdigits
    exact .digit hd (ih hrest)

end Gapped

/-! ## Figures -/

/-- No digit marks a base, nor does an underscore. -/
theorem ofMarker_of_isDigitOrGap {d : Byte} (hd : isDigitOrGap .decimal d = true) :
    Radix.ofMarker d = none := by
  have hne (c : Byte) (hc : isDigitOrGap .decimal c = false) : d ≠ c := by
    rintro rfl
    rw [hd] at hc
    cases hc
  rw [Radix.ofMarker, if_neg, if_neg]
  · exact not_or.mpr ⟨hne _ (by decide), hne _ (by decide)⟩
  · exact not_or.mpr ⟨hne _ (by decide), hne _ (by decide)⟩

namespace Spells

variable {radix : Radix} {literal digits : Bytes}

/-- The first byte of a number is a digit of base ten. -/
theorem exists_cons (hspells : Spells radix literal digits) :
    ∃ b tail, literal = b :: tail ∧ b.isDigit = true := by
  cases hspells with
  | decimal hdigit _ => exact ⟨_, _, rfl, hdigit⟩
  | hex _ _ | binary _ _ => exact ⟨_, _, rfl, rfl⟩

/-- No byte of it is a slash. -/
theorem slash_not_mem (hspells : Spells radix literal digits) : Byte.slash ∉ literal := by
  cases hspells with
  | decimal hdigit hrest =>
    rw [List.mem_cons, not_or]
    refine ⟨?_, hrest.slash_not_mem⟩
    rintro rfl
    cases hdigit
  | hex hx hrest | binary hx hrest =>
    rw [List.mem_cons, List.mem_cons, not_or, not_or]
    refine ⟨by decide, ?_, hrest.slash_not_mem⟩
    rcases hx with rfl | rfl <;> decide

end Spells

/-- **A number that is spelled is a figure** of its base and its digits,
before a byte that does not go on with it: one that is neither a digit of the
base nor an underscore nor, behind a zero alone, the second half of a
marker. -/
theorem figure_of_spells {radix : Radix} {b c : Byte} {tail digits : Bytes}
    (hspells : Spells radix (b :: tail) digits) (hstop : isDigitOrGap radix c = false)
    (hmarker : b :: tail = [Byte.zero] → Radix.ofMarker c = none) (rest : Bytes) :
    figure b (tail ++ c :: rest) = ⟨radix, digits, tail.length⟩ := by
  cases hspells with
  | @decimal run digits d hdigit hrest =>
    have hnone : marker? (b :: (tail ++ c :: rest)) = none := by
      rw [Lexeme.marker?_eq]
      split
      · rename_i hzero
        cases tail with
        | nil => exact hmarker (by rw [hzero])
        | cons d tail => exact ofMarker_of_isDigitOrGap (hrest.all d List.mem_cons_self)
      · rfl
    rw [figure, hnone]
    simp only [hrest.digitRun_eq hstop, hrest.digitsOf_eq]
  | @hex run digits x hx hrest =>
    have hsome : marker? (Byte.zero :: (x :: run ++ c :: rest)) = some .hex := by
      rw [Lexeme.marker?_eq]
      rcases hx with rfl | rfl <;> rfl
    rw [figure, hsome]
    simp [hrest.digitRun_eq hstop, hrest.digitsOf_eq, Nat.add_comm]
  | @binary run digits x hx hrest =>
    have hsome : marker? (Byte.zero :: (x :: run ++ c :: rest)) = some .binary := by
      rw [Lexeme.marker?_eq]
      rcases hx with rfl | rfl <;> rfl
    rw [figure, hsome]
    simp [hrest.digitRun_eq hstop, hrest.digitsOf_eq, Nat.add_comm]

end Numeral

namespace Grammar

/-- **The value of a number** is what its digits write, in 32 bits and with a
sign. -/
theorem Figure.toInt_value (f : Figure) :
    f.item.value.toInt = (magnitude f.radix f.digits : Int).bmod (2 ^ 32) := by
  rw [Figure.item, UInt32.toInt32_ofNat', Int32.toInt_ofNat']
  rfl

end Grammar

end BasicLexer
