import BasicLexer.Proofs.Reading.Grammar
import BasicLexer.Proofs.Reading.Lookahead

/-!
# Reading — readers conform to the grammar

Each reader of tokens, quotes aside, does what the grammar says of the
bytes shown ahead of it, and leaves the sights after the token. Comments
play no part in it, nor does a byte that a loop reads too far: both are
gone once it is said what is shown.
-/

namespace BasicLexer

open Reader Grammar

/-! ## Numbers -/

namespace Numeral

theorem continues_eq_some {radix : Radix} {b c : Byte} :
    continues radix b = some c ↔ isDigitOrGap radix b = true ∧ b = c := by
  simp only [continues, isDigitOrGap, Bool.or_eq_true, beq_iff_eq]
  split <;> simp_all

theorem continues_eq_none {radix : Radix} {b : Byte} :
    continues radix b = none ↔ isDigitOrGap radix b = false := by
  rw [← Bool.not_eq_true, isDigitOrGap, Bool.or_eq_true, beq_iff_eq, continues]
  split <;> simp_all

/-- The loop over digits takes the run of them. -/
theorem ends_digitsFrom (radix : Radix) (taken : Bytes) (h : Head) :
    Ends (digitsFrom radix taken h)
      (.ok (taken.reverse ++ digitsOf (digitRun radix h.visible),
        h.sights.drop (digitRun radix h.visible).length)) := by
  rw [← h.bytes_sights]
  fun_induction digitsFrom radix taken h with
  | case1 taken h b h₁ hstep ih =>
    obtain ⟨c, column, hsights, hc⟩ := sights_of_nextIf_some hstep
    obtain ⟨hdigit, rfl⟩ := continues_eq_some.mp hc
    rw [hsights, Shown.bytes_cons, digitRun, List.takeWhile_cons_of_pos hdigit, ← digitRun,
      List.length_cons, List.drop_succ_cons]
    by_cases hgap : c = Byte.underscore
    · simpa [digitsOf, hgap] using ih
    · simpa [digitsOf, hgap] using ih
  | case2 taken h h₁ hstep =>
    obtain ⟨hsights, hnone⟩ := sights_of_nextIf_none hstep
    have hrun : digitRun radix h.sights.bytes = [] := by
      cases hshown : h.sights with
      | nil => rfl
      | cons sight rest =>
        rw [hshown] at hnone
        have hdigit := continues_eq_none.mp (hnone sight rfl)
        rw [Shown.bytes_cons, digitRun, List.takeWhile_cons_of_neg (by simp [hdigit])]
    rw [hrun, ends_ok]
    exact ⟨by simp [digitsOf], hsights⟩
  | case3 taken h failure h₁ hstep => exact absurd hstep nextIf_ne_error

/-- One digit more of the number that was built so far. -/
theorem push_ofNat (radix : Radix) (n : Nat) (digit : Byte) :
    Accumulated.push radix ⟨UInt32.ofNat n, UInt32.size ≤ n⟩ digit =
      ⟨UInt32.ofNat (n * radix.base + digit.digitValue),
        UInt32.size ≤ n * radix.base + digit.digitValue⟩ := by
  have hbase : 1 ≤ radix.base := by cases radix <;> decide
  have hword : (UInt32.ofNat n).toNat = n % UInt32.size := UInt32.toNat_ofNat
  simp only [Accumulated.push, hword, Accumulated.mk.injEq]
  constructor
  · apply UInt32.toNat_inj.mp
    simp only [UInt32.toNat_ofNat', Nat.add_mod, Nat.mul_mod, UInt32.size, Nat.mod_mod]
  · rcases Nat.lt_or_ge n UInt32.size with hlt | hge
    · rw [Nat.mod_eq_of_lt hlt, decide_eq_false (by omega), Bool.false_or]
    -- what was lost stays lost, since no base makes a number smaller
    · have hmore : n ≤ n * radix.base := Nat.le_mul_of_pos_right n hbase
      rw [decide_eq_true hge, Bool.true_or, decide_eq_true (by omega)]

/-- The value built digit by digit is the number the digits write, in 32
bits, and something is lost where the number has more. -/
theorem accumulate_eq (radix : Radix) (digits : Bytes) :
    accumulate radix digits =
      ⟨UInt32.ofNat (magnitude radix digits), UInt32.size ≤ magnitude radix digits⟩ := by
  have hfold : ∀ n : Nat, digits.foldl (Accumulated.push radix) ⟨UInt32.ofNat n, UInt32.size ≤ n⟩ =
      ⟨UInt32.ofNat (digits.foldl (fun n digit => n * radix.base + digit.digitValue) n),
        UInt32.size ≤ digits.foldl (fun n digit => n * radix.base + digit.digitValue) n⟩ := by
    induction digits with
    | nil => exact fun n => rfl
    | cons digit digits ih =>
      intro n
      rw [List.foldl_cons, push_ofNat, ih, List.foldl_cons]
  exact hfold 0

/-- A number fits the machine word exactly below its bound. -/
theorem fits_accumulate (radix : Radix) (digits : Bytes) :
    (accumulate radix digits).fits radix = false ↔ bound radix ≤ magnitude radix digits := by
  rw [accumulate_eq]
  have hword : (UInt32.ofNat (magnitude radix digits)).toNat =
      magnitude radix digits % UInt32.size :=
    UInt32.toNat_ofNat
  cases radix <;> simp [Accumulated.fits, bound, hword, UInt32.size]
  omega

/-- **A number is read** through its last digit, or refused where it does
not fit. What is read before it and what is left after it make up the
number as it is written. -/
theorem ends_read (options : Options) {f : Figure} {first : Bytes} {h : Head} {after : Shown}
    (hdigits : f.digits = first ++ digitsOf (digitRun f.radix h.visible))
    (hafter : h.sights.drop (digitRun f.radix h.visible).length = after) :
    Ends (read options f.radix first h)
      (if f.Refused options then .error (.numberOutOfRange f.digits.text)
      else .ok ((f.digits, f.item.value), after)) := by
  have hrun := ends_digitsFrom f.radix first.reverse h
  rw [List.reverse_reverse, ← hdigits, hafter] at hrun
  refine Ends.bind hrun fun h' hrest => ?_
  have hvalue : (accumulate f.radix f.digits).word.toInt32 = f.item.value := by
    rw [accumulate_eq]
    rfl
  have hfits : (options.literalOverflow = .error ∧
      (accumulate f.radix f.digits).fits f.radix = false) ↔ f.Refused options := by
    rw [fits_accumulate]
    rfl
  by_cases hrefused : f.Refused options
  · rw [if_pos hrefused, if_pos (hfits.mpr hrefused)]
    exact ends_fail _ h'
  · rw [if_neg hrefused, if_neg fun hnot => hrefused (hfits.mp hnot), ← hrest, ← hvalue]
    exact ends_pure _ h'

end Numeral

/-! ## Words -/

namespace Word

/-- The loop over word bytes takes the run of them, if there is room. -/
theorem ends_tailFrom (word : Bytes) (room : Nat) (h : Head) :
    Ends (tailFrom word room h)
      (if room < (run h).length then .error .identifierTooLong
      else .ok (word.reverse ++ run h, h.sights.drop (run h).length)) := by
  fun_induction tailFrom word room h with
  | case1 word h b h₁ hstep =>
    rw [run_of_some hstep, List.length_cons, if_pos (Nat.succ_pos _)]
    exact ⟨h₁, rfl⟩
  | case2 word h b h₁ hstep room ih =>
    obtain ⟨c, column, hsights, -⟩ := sights_of_nextIf_some hstep
    rw [run_of_some hstep, hsights]
    simp only [List.length_cons, Nat.succ_eq_add_one, Nat.add_lt_add_iff_right,
      List.drop_succ_cons]
    rwa [List.reverse_cons, List.append_assoc, List.singleton_append] at ih
  | case3 word room h h₁ hstep =>
    rw [run_of_none hstep, List.length_nil, if_neg (Nat.not_lt_zero _), ends_ok]
    exact ⟨by rw [List.append_nil], (sights_of_nextIf_none hstep).1⟩
  | case4 word room h failure h₁ hstep => exact absurd hstep nextIf_ne_error

/-- **A word is read** through its last byte, or refused for want of
room. -/
theorem ends_read (options : Options) (b : Byte) (h : Head) :
    Ends (read options b h)
      (if room options < (b :: wordRun h.visible).length then .error .identifierTooLong
      else .ok (b :: wordRun h.visible, h.sights.drop (wordRun h.visible).length)) := by
  have htail := ends_tailFrom [b] (options.maxToken - 1) h
  have hroom : options.maxToken - 1 < (run h).length ↔
      room options < (b :: wordRun h.visible).length := by
    rw [List.length_cons, room, show wordRun h.visible = run h from rfl]
    omega
  simp only [hroom] at htail
  exact htail

/-- The lookahead for a compound takes the word that follows if it makes
one with the first, and leaves all sights otherwise; what follows is
refused where there is no room for it, whatever it makes. -/
theorem ends_readCompound (options : Options) (first : Keyword) (h : Head) :
    Ends (readCompound options first h)
      (if room options < (following h).length then .error .identifierTooLong
      else
        match joined? first h with
        | some compound =>
          .ok (some (compound, following h),
            h.sights.drop ((h.visible.takeWhile Byte.isBlank).length + (following h).length))
        | none => .ok (none, h.sights)) := by
  rw [readCompound_apply]
  rcases readSecond_cases options first h with ⟨hnone, hsecond⟩ | ⟨b, h', hskip, hword, hsecond⟩
  · rw [hsecond, joined?, hnone, keyword?_nil, List.length_nil, if_neg (Nat.not_lt_zero _)]
    exact ⟨h, rfl, rfl⟩
  have hfollowing : following h = b :: wordRun h'.visible := following_of_word hskip hword
  have hsights : h.sights.drop (h.visible.takeWhile Byte.isBlank).length =
      (b, h'.column - 1) :: h'.sights := by
    rw [← h.bytes_sights, Shown.drop_takeWhile, dropWhile_sights, hskip]
  have hread := ends_read options b h'
  rw [joined?, hfollowing, hsecond]
  by_cases hroom : room options < (b :: wordRun h'.visible).length
  · rw [if_pos hroom] at hread ⊢
    obtain ⟨h'', hrun⟩ := hread
    rw [bind_of_error hrun]
    exact ⟨h'', rfl⟩
  · rw [if_neg hroom] at hread ⊢
    obtain ⟨h'', hrun, hrest⟩ := hread
    have hfound (word : Bytes) : ((keyword? word).bind fun second =>
        (Compound.ofWords? first second).map fun compound => (compound, word)) =
        ((keyword? word).bind (Compound.ofWords? first)).map fun compound => (compound, word) :=
      (Option.map_bind ..).symm
    rw [bind_of_ok hrun, hfound]
    cases (keyword? (b :: wordRun h'.visible)).bind (Compound.ofWords? first) with
    | none => exact ⟨h, rfl, rfl⟩
    | some compound =>
      refine ⟨h'', rfl, ?_⟩
      rw [hrest, ← List.drop_drop, hsights, List.length_cons, List.drop_succ_cons]

/-- Only keywords that open compounds make any. -/
theorem bind_ofWords?_of_not_opens {first : Keyword} (hopens : ¬ first.opensCompound = true)
    (second : Option Keyword) : second.bind (Compound.ofWords? first) = none := by
  rw [Option.bind_eq_none_iff]
  intro k _
  rw [Option.eq_none_iff_forall_ne_some]
  rintro compound hfound
  exact hopens ((Compound.ofWords?_eq_some.mp hfound).1 ▸ compound.opensCompound_first)

/-- **A word is a token** as the grammar has it. -/
theorem ends_readToken (options : Options) (start : Nat) {b : Byte} (h : Head)
    (hword : b.isWord = true) (hdigit : b.isDigit = false) :
    Ends (readToken options start b h) (outcome options b start h.sights) := by
  have hread := ends_read options b h
  rw [outcome, refusal?, item_of_word _ hword hdigit, hdigit, hword, h.bytes_sights]
  simp only [Bool.false_eq_true, if_false, if_true]
  by_cases hroom : room options < (b :: wordRun h.visible).length
  · rw [if_pos hroom] at hread ⊢
    exact hread.bind_error
  rw [if_neg hroom] at hread ⊢
  refine hread.bind fun h' hrest => ?_
  -- after the first word the head shows what the grammar looks for the second in
  have hvisible : h'.visible = h.visible.dropWhile Byte.isWord := by
    rw [← h'.bytes_sights, hrest, Shown.bytes_drop, h.bytes_sights, wordRun, drop_takeWhile]
  have hgap : (h'.visible.takeWhile Byte.isBlank).length = (gap h.visible).length := by
    rw [hvisible, gap]
  have hsecond : following h' = secondRun h.visible := by
    rw [following, hvisible, secondRun, wordRun]
  rw [word, opens]
  cases hk : keyword? (b :: wordRun h.visible) with
  | none =>
    simp only [Option.any_none, Bool.false_eq_true, false_and, if_false]
    exact hrest ▸ ends_pure _ h'
  | some k =>
    by_cases hopens : k.opensCompound = true
    · have hcompound := ends_readCompound options k h'
      rw [joined?, hsecond, hgap] at hcompound
      simp only [hopens, Option.any_some, if_true, true_and]
      by_cases hlong : room options < (secondRun h.visible).length
      · rw [if_pos hlong] at hcompound ⊢
        exact hcompound.bind_error
      rw [if_neg hlong] at hcompound ⊢
      cases hjoined : (keyword? (secondRun h.visible)).bind (Compound.ofWords? k) with
      | none =>
        rw [hjoined] at hcompound
        refine hcompound.bind fun h'' hafter => ?_
        exact hrest ▸ hafter ▸ ends_pure _ h''
      | some compound =>
        rw [hjoined, hrest, List.drop_drop, ← Nat.add_assoc] at hcompound
        refine hcompound.bind fun h'' hafter => ?_
        exact hafter ▸ ends_pure _ h''
    · simp only [hopens, Option.any_some, bind_ofWords?_of_not_opens hopens]
      exact hrest ▸ ends_pure _ h'

end Word

/-! ## Tokens -/

namespace Lexeme

/-! ### Operators -/

/-- The operator that a byte and the one after it make. -/
theorem operator?_eq (b : Byte) (rest : Bytes) :
    Grammar.operator? (b :: rest) = rest.head?.bind (operator? b) := by
  cases rest with
  | nil => simp [Grammar.operator?, Operator.table, Operator.bytes, List.isPrefixOf]
  | cons c rest =>
    simp only [Grammar.operator?, Operator.table, Operator.bytes, List.isPrefixOf, operator?,
      List.find?_cons, List.head?_cons, Option.bind_some]
    grind

/-- **An operator is a token** as the grammar has it, and so is a byte
that begins one in vain. -/
theorem ends_readOperator (options : Options) (start : Nat) {b : Byte} (h : Head)
    (hb : b = Byte.less ∨ b = Byte.greater) :
    Ends (readOperator start b h) (outcome options b start h.sights) := by
  have hdigit : b.isDigit = false := by rcases hb with rfl | rfl <;> rfl
  have hword : b.isWord = false := by rcases hb with rfl | rfl <;> rfl
  have hnext := ends_nextIf (operator? b) h
  rw [takeFirst_eq, ← operator?_eq] at hnext
  rw [outcome, refusal?, item, hdigit, hword]
  refine hnext.bind fun h' hrest => ?_
  cases hfound : Grammar.operator? (b :: h.sights.bytes) with
  | none =>
    rw [hfound] at hrest
    exact ends_ok.mpr ⟨rfl, hrest⟩
  | some operator =>
    rw [hfound] at hrest
    exact ends_ok.mpr ⟨rfl, hrest.trans List.drop_one.symm⟩

/-! ### Numbers -/

/-- The base that a zero and the byte after it mark. -/
theorem marker?_eq (b : Byte) (rest : Bytes) :
    marker? (b :: rest) = if b = Byte.zero then rest.head?.bind Radix.ofMarker else none := by
  cases rest with
  | nil => simp [marker?, markers, List.isPrefixOf]
  | cons c rest =>
    simp only [marker?, markers, List.isPrefixOf, List.find?_cons, Radix.ofMarker, List.head?_cons,
      Option.bind_some]
    grind

/-- Reading a marker takes its second byte. -/
theorem ends_readMarker (b : Byte) (h : Head) :
    Ends (readMarker b h)
      (.ok (marker? (b :: h.visible),
        if (marker? (b :: h.visible)).isSome then h.sights.tail else h.sights)) := by
  rw [readMarker, marker?_eq]
  split
  · have hnext := ends_nextIf Radix.ofMarker h
    rwa [takeFirst_eq, h.bytes_sights] at hnext
  · exact ends_pure none h

/-- After the marker, if there is one, the rest of the number is read. -/
theorem ends_figure (options : Options) (b : Byte) {h h' : Head}
    (hrest : h'.sights =
      if (marker? (b :: h.visible)).isSome then h.sights.tail else h.sights) :
    Ends
      (Numeral.read options ((marker? (b :: h.visible)).getD .decimal)
        (if (marker? (b :: h.visible)).isSome then [] else [b]) h')
      (if (figure b h.visible).Refused options then
        .error (.numberOutOfRange (figure b h.visible).digits.text)
      else
        .ok (((figure b h.visible).digits, (figure b h.visible).item.value),
          h.sights.drop (figure b h.visible).taken)) := by
  rw [figure]
  cases hmarker : marker? (b :: h.visible) with
  | none =>
    rw [hmarker] at hrest
    have hvisible : h'.visible = h.visible := by
      rw [← h'.bytes_sights, hrest, ← h.bytes_sights]
      rfl
    exact Numeral.ends_read options (f := ⟨.decimal, _, _⟩) (by rw [hvisible]; rfl)
      (by rw [hvisible, hrest]; rfl)
  | some radix =>
    rw [hmarker] at hrest
    have hdrop : h'.sights = h.sights.drop 1 := hrest.trans List.drop_one.symm
    have hvisible : h'.visible = h.visible.drop 1 := by
      rw [← h'.bytes_sights, hdrop, Shown.bytes_drop, h.bytes_sights]
    exact Numeral.ends_read options (f := ⟨radix, _, _⟩) (by rw [hvisible]; rfl)
      (by rw [hvisible, hdrop, List.drop_drop])

/-- **A number is a token** as the grammar has it. -/
theorem ends_readNumber (options : Options) (start : Nat) {b : Byte} (h : Head)
    (hdigit : b.isDigit = true) :
    Ends (readNumber options start b h) (outcome options b start h.sights) := by
  rw [outcome_of_digit hdigit, h.bytes_sights]
  refine (ends_readMarker b h).bind fun h' hrest => ?_
  have hfigure := ends_figure options b hrest
  by_cases hrefused : (figure b h.visible).Refused options
  · rw [if_pos hrefused] at hfigure ⊢
    exact hfigure.bind_error
  · rw [if_neg hrefused] at hfigure ⊢
    exact hfigure.bind fun h'' hafter => ends_ok.mpr ⟨rfl, hafter⟩

/-! ### Any token -/

/-- **Every token is as the grammar has it**, quotes aside. -/
theorem ends_readFrom (options : Options) (start : Nat) {b : Byte} (h : Head)
    (hdouble : b ≠ Byte.doubleQuote) (hsingle : b ≠ Byte.singleQuote) :
    Ends (readFrom options start b h) (outcome options b start h.sights) := by
  rw [readFrom, if_neg hdouble, if_neg hsingle]
  by_cases hoperator : b = Byte.less ∨ b = Byte.greater
  · rw [if_pos hoperator]
    exact ends_readOperator options start h hoperator
  rw [if_neg hoperator]
  by_cases hdigit : b.isDigit = true
  · rw [if_pos hdigit]
    exact ends_readNumber options start h hdigit
  rw [if_neg hdigit]
  by_cases hword : b.isWord = true
  · rw [if_pos hword]
    exact Word.ends_readToken options start h hword (Bool.eq_false_iff.mpr hdigit)
  · obtain ⟨hless, hgreater⟩ := not_or.mp hoperator
    rw [if_neg hword, outcome, refusal?, item, operator?_eq_none _ hless hgreater, if_neg hdigit,
      if_neg hword]
    simp only [if_neg hdigit, if_neg hword]
    exact ends_ok.mpr ⟨rfl, rfl⟩

/-- A token that is read after its first byte is a literal in quotes, or what
the grammar makes of that byte. -/
theorem readFrom_cases {options : Options} {start : Nat} {b : Byte} {h h' : Head} {t : Token}
    (hread : readFrom options start b h = .ok t h') :
    (b = Byte.doubleQuote ∧ ∃ contents, Quotation.readString options h = .ok contents h' ∧
        t = { kind := .string, text := contents.text, offset := start }) ∨
      (b = Byte.singleQuote ∧ ∃ content, Quotation.readCharacter h = .ok content h' ∧
        t = { kind := .number, text := Bytes.text [content], value := Int32.ofNat content.toNat,
              offset := start }) ∨
      (b ≠ Byte.doubleQuote ∧ b ≠ Byte.singleQuote ∧
        outcome options b start h.sights = .ok (t, h'.sights)) := by
  by_cases hdouble : b = Byte.doubleQuote
  · rw [readFrom, if_pos hdouble] at hread
    obtain ⟨contents, h₁, hstring, hrest⟩ := bind_eq_ok hread
    cases hrest
    exact .inl ⟨hdouble, contents, hstring, rfl⟩
  by_cases hsingle : b = Byte.singleQuote
  · rw [readFrom, if_neg hdouble, if_pos hsingle] at hread
    obtain ⟨content, h₁, hcharacter, hrest⟩ := bind_eq_ok hread
    cases hrest
    exact .inr (.inl ⟨hsingle, content, hcharacter, rfl⟩)
  · have hends := ends_readFrom options start h hdouble hsingle
    rw [hread] at hends
    exact .inr (.inr ⟨hdouble, hsingle, hends.eq_ok⟩)

/-- What is read goes by the first byte that is not blank. -/
theorem read_eq (options : Options) (h : Head) :
    read options h =
      match skipBlanksFrom h with
      | (some b, h') => readFrom options (h'.column - 1) b { h' with tokenStart := h'.column - 1 }
      | (none, h') => .ok (endOfLine h'.column) { h' with tokenStart := h'.column } := by
  rcases hskip : skipBlanksFrom h with ⟨_ | b, h'⟩ <;>
    simp only [read, Bind.bind, EStateM.bind, skipBlanks, hskip, noteStart, Option.isSome_some,
      if_true]
  rfl

/-- Where nothing but blanks is shown, the token is that of the end of
the line. -/
theorem ends_read_of_end (options : Options) {h : Head} (hplaced : h.Placed)
    (hblank : h.sights.dropWhile (fun sight => sight.1.isBlank) = []) :
    Ends (read options h) (.ok (endOfLine h.lineLength, [])) := by
  have halong := along_skipBlanksFrom h
  rw [dropWhile_sights] at hblank
  rcases hskip : skipBlanksFrom h with ⟨_ | b, h'⟩
  · have hahead : h'.ahead = [] := by
      have hend := ahead_skipBlanksFrom (h := h) (by rw [hskip])
      rwa [hskip] at hend
    rw [hskip] at halong
    -- the head is at the end of the line, so its column is the line's length
    have hcolumn : h'.column = h.lineLength := by
      rw [← halong.lineLength, Head.lineLength, hahead, halong.placed hplaced]
      rfl
    rw [read_eq, hskip]
    dsimp only
    rw [hcolumn, ends_ok]
    exact ⟨rfl, Head.sights_of_none (Head.next_of_ahead_nil hahead)⟩
  · rw [hskip] at hblank
    cases hblank

/-- **The token that is read** is the one that begins with the first byte
that is not blank. -/
theorem ends_read_of_cons (options : Options) {h : Head} {b : Byte} {column : Nat} {rest : Shown}
    (hshown : h.sights.dropWhile (fun sight => sight.1.isBlank) = (b, column) :: rest)
    (hdouble : b ≠ Byte.doubleQuote) (hsingle : b ≠ Byte.singleQuote) :
    Ends (read options h) (outcome options b column rest) := by
  rw [dropWhile_sights] at hshown
  rcases hskip : skipBlanksFrom h with ⟨_ | c, h'⟩
  · rw [hskip] at hshown
    cases hshown
  · rw [hskip] at hshown
    cases hshown
    rw [read_eq, hskip, ← Head.sights_noted h' (h'.column - 1)]
    exact ends_readFrom options _ _ hdouble hsingle

/-- Where the token of the end of the line is read, the line is at its
end. -/
theorem ahead_of_read_of_end {options : Options} {h h' : Head} {t : Token}
    (hblank : h.sights.dropWhile (fun sight => sight.1.isBlank) = [])
    (hread : read options h = .ok t h') : h'.ahead = [] := by
  rw [dropWhile_sights] at hblank
  rw [read_eq] at hread
  rcases hskip : skipBlanksFrom h with ⟨_ | b, h₁⟩ <;> rw [hskip] at hread hblank
  · have hend := ahead_skipBlanksFrom (h := h) (by rw [hskip])
    rw [hskip] at hend
    cases hread
    exact hend
  · cases hblank

/-- **One step of a scan** of what is shown of a line without quotes: the
token of its end, a token that is refused, or the first of the tokens,
with a line without quotes left that shows less. -/
theorem read_of_unquoted (options : Options) {h : Head} (hplaced : h.Placed)
    (hquotes : ∀ b ∈ h.visible, b ≠ Byte.doubleQuote ∧ b ≠ Byte.singleQuote) :
    (∃ h', read options h = .ok (endOfLine h.lineLength) h' ∧ h'.ahead = [] ∧
      scan options h.lineLength h.sights = ([endOfLine h.lineLength], none)) ∨
    (∃ cause h', read options h = .error (.reported cause) h' ∧
      scan options h.lineLength h.sights = ([], some cause)) ∨
    (∃ t h', read options h = .ok t h' ∧ t.kind ≠ .endOfLine ∧ h.Along h' ∧
      h'.sights.length < h.sights.length ∧
      (∀ b ∈ h'.visible, b ≠ Byte.doubleQuote ∧ b ≠ Byte.singleQuote) ∧
      scan options h.lineLength h.sights =
        (t :: (scan options h'.lineLength h'.sights).1,
          (scan options h'.lineLength h'.sights).2)) := by
  match hshown : h.sights.dropWhile fun sight => sight.1.isBlank with
  | [] =>
    obtain ⟨h', hread, -⟩ := ends_read_of_end options hplaced hshown
    exact .inl ⟨h', hread, ahead_of_read_of_end hshown hread, scan_of_end _ _ hshown⟩
  | (b, column) :: rest =>
    have hsuffix : (b, column) :: rest <:+ h.sights := hshown ▸ List.dropWhile_suffix _
    have hvisible : b :: Shown.bytes rest ⊆ h.visible := by
      rw [← h.bytes_sights]
      exact (hsuffix.map Prod.fst).subset
    obtain ⟨hdouble, hsingle⟩ := hquotes b (hvisible List.mem_cons_self)
    have hends := ends_read_of_cons options hshown hdouble hsingle
    rw [scan_of_cons _ _ hshown]
    cases houtcome : outcome options b column rest with
    | error cause =>
      rw [houtcome] at hends
      obtain ⟨h', hread⟩ := hends
      exact .inr (.inl ⟨cause, h', hread, rfl⟩)
    | ok found =>
      obtain ⟨token, after⟩ := found
      rw [houtcome] at hends
      obtain ⟨h', hread, rfl⟩ := hends
      obtain ⟨-, htoken, hdrop⟩ := outcome_eq_ok.mp houtcome
      have halong := (orderly_read options).along_of_ok hread
      refine .inr (.inr ⟨token, h', hread, htoken ▸ kind_item b (Shown.bytes rest), halong, ?_, ?_,
        by rw [halong.lineLength]⟩)
      · have hle := hsuffix.length_le
        rw [hdrop, List.length_drop]
        rw [List.length_cons] at hle
        omega
      · intro c hc
        rw [← h'.bytes_sights, hdrop, Shown.bytes_drop] at hc
        exact hquotes c (hvisible (List.mem_cons_of_mem _ (List.mem_of_mem_drop hc)))

end Lexeme

end BasicLexer
