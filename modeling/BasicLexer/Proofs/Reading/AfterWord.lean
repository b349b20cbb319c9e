import BasicLexer.Proofs.Reading.Conformity

/-!
# Reading — what comes after a word

A word ends where the byte after it is looked at, and that look is all
that reading the word has to do with what comes after: `Bytes.afterWord`.
With other bytes there every reader up to the word does the same, so the
same keyword is read (`Lexeme.read_of_after`). The look itself goes past
comments, and may come to the end of the line inside one. Then the head is
left in the comment: `Bytes.opensComment`.
-/

namespace BasicLexer

/-! ## One byte -/

namespace Sight

/-- A byte that is seen is seen whatever comes after it, unless it is a
slash. -/
theorem ofRest_of_after {inComment : Bool} {passed reach : Nat} {skipped after : Bytes} {b : Byte}
    (hslash : b ≠ Byte.slash) (hreach : reach = passed + skipped.length + 1)
    (hsight : ofRest inComment passed (skipped ++ b :: after) = .byte b reach) (after' : Bytes) :
    ofRest inComment passed (skipped ++ b :: after') = .byte b reach := by
  generalize hrest : skipped ++ b :: after = rest at hsight
  fun_induction ofRest inComment passed rest generalizing skipped with
  | case1 | case2 | case5 | case7 => cases hsight
  | case3 passed c d rest hcloses ih | case8 passed c d rest hline hcloses ih =>
    -- what is seen comes after both bytes
    have hlater := (reach_ofRest hsight).1
    rcases skipped with _ | ⟨_, _ | ⟨_, skipped⟩⟩ <;> cases hrest <;>
      simp only [List.length_cons, List.length_nil] at hreach
    · omega
    · omega
    · have hagain := ih (by omega) rfl hsight
      first
      | simpa only [List.cons_append, ofRest, if_pos hcloses] using hagain
      | simpa only [List.cons_append, ofRest, if_neg hline, if_pos hcloses] using hagain
  | case4 passed c d rest hcloses ih =>
    have hlater := (reach_ofRest hsight).1
    rcases skipped with _ | ⟨_, skipped⟩ <;> simp only [List.length_cons, List.length_nil] at hreach
    · omega
    · obtain ⟨rfl, htail⟩ := List.cons_eq_cons.mp hrest
      have hreach' : reach = passed + 1 + List.length skipped + 1 := by omega
      have hagain := ih hreach' htail hsight
      rcases skipped with _ | ⟨_, skipped⟩ <;> cases htail <;>
        simpa only [List.cons_append, List.nil_append, ofRest, if_neg hcloses] using hagain
  | case6 passed c | case9 passed c =>
    cases hsight
    obtain rfl : skipped = [] := List.length_eq_zero_iff.mp (by omega)
    cases hrest
    cases after' with
    | nil => rfl
    | cons d after' => simp [ofRest, hslash]

end Sight

namespace Head

/-- **A byte that is read is read whatever comes after it**, unless it is
a slash. -/
theorem next_of_after {h : Head} {b : Byte} {kept text : Bytes} (hahead : h.ahead = kept ++ text)
    (hslash : b ≠ Byte.slash) (hnext : h.next.1 = some b)
    (hkeeps : text.length ≤ h.next.2.ahead.length) :
    ∃ more, h.next.2.ahead = more ++ text ∧ ∀ text', next { h with ahead := kept ++ text' } =
      (some b, { h.next.2 with ahead := more ++ text' }) := by
  cases hsight : Sight.ofRest h.inComment 0 h.ahead with
  | exhausted | hidden =>
    rw [next, hsight] at hnext
    cases hnext
  | byte c reach =>
    obtain ⟨skipped, after, hsplit, hreach, -⟩ := Sight.split_of_byte hsight
    have hread := next_of_sight hsplit (by rw [hsight, hreach, Nat.zero_add])
    rw [hread] at hnext hkeeps ⊢
    cases hnext
    have hbefore : kept ++ text = (skipped ++ [b]) ++ after := by
      rw [← hahead, hsplit, List.append_assoc, List.singleton_append]
    obtain ⟨more, rfl⟩ : text <:+ after :=
      List.suffix_of_suffix_length_le ⟨kept, hbefore⟩ (List.suffix_append _ _) hkeeps
    rw [← List.append_assoc, List.append_left_inj] at hbefore
    refine ⟨more, rfl, fun text' => ?_⟩
    have hahead' : kept ++ text' = skipped ++ b :: (more ++ text') := by
      rw [hbefore, List.append_assoc, List.append_assoc, List.singleton_append]
    have hsight' : Sight.ofRest h.inComment 0 (kept ++ text') = .byte b (skipped.length + 1) := by
      rw [hsplit, hreach] at hsight
      rw [hahead', ← Nat.zero_add skipped.length]
      exact Sight.ofRest_of_after hslash rfl hsight _
    exact next_of_sight (h := { h with ahead := kept ++ text' }) hahead' hsight'

end Head

/-! ## Blanks -/

namespace Reader

theorem skipBlanksFrom_of_some {h : Head} {b : Byte} (hnext : h.next.1 = some b) :
    skipBlanksFrom h = if b.isBlank then skipBlanksFrom h.next.2 else (some b, h.next.2) := by
  rw [skipBlanksFrom]
  split
  · rename_i c hc
    rw [hnext] at hc
    cases hc
    rfl
  · rename_i hc
    rw [hnext] at hc
    cases hc

theorem skipBlanksFrom_of_none {h : Head} (hnext : h.next.1 = none) :
    skipBlanksFrom h = (none, h.next.2) := by
  rw [skipBlanksFrom]
  split
  · rename_i c hc
    rw [hnext] at hc
    cases hc
  · rfl

/-- Blanks are skipped for the same byte, whatever comes after it, unless it
is a slash. -/
theorem skipBlanksFrom_of_after {h h' : Head} {b : Byte} {kept text : Bytes}
    (hahead : h.ahead = kept ++ text) (hslash : b ≠ Byte.slash)
    (hskip : skipBlanksFrom h = (some b, h')) (hkeeps : text.length ≤ h'.ahead.length) :
    ∃ more, h'.ahead = more ++ text ∧ ∀ text',
      skipBlanksFrom { h with ahead := kept ++ text' } =
        (some b, { h' with ahead := more ++ text' }) := by
  fun_induction skipBlanksFrom h generalizing kept with
  | case1 h c hnext hblank ih =>
    have hc : c ≠ Byte.slash := by
      rintro rfl
      cases hblank
    have hless : h'.ahead.length + 1 ≤ h.next.2.ahead.length := by
      simpa [hskip] using length_ahead_skipBlanksFrom h.next.2
    obtain ⟨more, hmore, hagain⟩ := Head.next_of_after hahead hc hnext (by omega)
    obtain ⟨rest, hrest, hskip'⟩ := ih hmore hskip
    refine ⟨rest, hrest, fun text' => ?_⟩
    have hread := hagain text'
    rw [skipBlanksFrom_of_some (by rw [hread]), if_pos hblank, hread, hskip']
  | case2 h c hnext hblank =>
    cases hskip
    obtain ⟨more, hmore, hagain⟩ := Head.next_of_after hahead hslash hnext hkeeps
    refine ⟨more, hmore, fun text' => ?_⟩
    have hread := hagain text'
    rw [skipBlanksFrom_of_some (by rw [hread]), if_neg hblank, hread]
  | case3 h hnext => cases hskip

end Reader

/-! ## Words -/

namespace Bytes

/-- What comes after the word bytes that are seen next, outside any
comment. A comment among them or behind them is not passed over. -/
def afterWord (rest : Bytes) : Bytes :=
  match _hsight : Sight.ofRest false 0 rest with
  | .byte b reach => if b.isWord then afterWord (rest.drop reach) else rest
  | _ => rest
  termination_by rest.length
  decreasing_by
    have := Sight.reach_ofRest _hsight
    rw [List.length_drop]
    omega

/-- Whether comments alone hide a text to its end, and the last of them
stays open. -/
def opensComment (text : Bytes) : Bool :=
  match Sight.ofRest false 0 text with
  | .hidden isOpen => isOpen
  | _ => false

end Bytes

/-- The look at what is ahead leaves the head in a comment or not by what it
is, outside any comment. -/
theorem Head.inComment_retract_next {h : Head} (hcomment : h.inComment = false) :
    h.next.2.retract.inComment = h.ahead.opensComment := by
  rw [Head.next, Bytes.opensComment, hcomment]
  cases Sight.ofRest false 0 h.ahead <;> rfl

namespace Word

open Bytes

variable {h h' : Head}

/-- After a word byte comes what comes after the rest of the word, and
after any other all that is ahead. -/
theorem afterWord_eq (hcomment : h.inComment = false) :
    afterWord h.ahead =
      if (h.next.1.bind continues).isSome then afterWord h.next.2.ahead else h.ahead := by
  rw [afterWord, Head.next, hcomment]
  split
  · rename_i b reach hsight
    rw [hsight]
    by_cases hword : b.isWord = true <;> simp [continues, hword, Head.forward]
  · rename_i hnone
    split
    · rename_i b reach hsight
      exact absurd hsight (hnone b reach)
    · rfl
    · rfl

theorem length_afterWord_le (rest : Bytes) : (afterWord rest).length ≤ rest.length := by
  fun_induction afterWord rest with
  | case1 rest b reach hsight hword ih =>
    rw [List.length_drop] at ih
    omega
  | case2 | case3 => exact Nat.le_refl _

theorem tailFrom_of_some {word : Bytes} {room : Nat} {b : Byte}
    (hstep : Reader.nextIf continues h = .ok (some b) h') :
    tailFrom word (room + 1) h = tailFrom (b :: word) room h' := by
  rw [tailFrom]
  split <;> rename_i hread <;> rw [hstep] at hread <;> cases hread
  rfl

theorem tailFrom_of_none {word : Bytes} {room : Nat}
    (hstep : Reader.nextIf continues h = .ok none h') :
    tailFrom word room h = .ok word.reverse h' := by
  rw [tailFrom]
  split <;> rename_i hread <;> rw [hstep] at hread <;> cases hread
  rfl

/-- A byte that goes on with a word is read whatever comes after the word. -/
theorem nextIf_of_after {kept text : Bytes} {b : Byte} (hcomment : h.inComment = false)
    (htext : afterWord h.ahead = text) (hahead : h.ahead = kept ++ text)
    (hstep : Reader.nextIf continues h = .ok (some b) h') :
    h'.inComment = false ∧ afterWord h'.ahead = text ∧ ∃ more, h'.ahead = more ++ text ∧
      ∀ text', Reader.nextIf continues { h with ahead := kept ++ text' } =
        .ok (some b) { h' with ahead := more ++ text' } := by
  rw [Reader.nextIf_apply, EStateM.Result.ok.injEq] at hstep
  obtain ⟨hbind, rfl⟩ := hstep
  obtain ⟨c, hnext, hcontinues⟩ := Option.bind_eq_some_iff.mp hbind
  obtain ⟨hword, rfl⟩ := continues_eq_some.mp hcontinues
  have hslash : c ≠ Byte.slash := by
    rintro rfl
    cases hword
  rw [afterWord_eq hcomment, hbind, Option.isSome_some, if_pos rfl] at htext
  rw [hbind, Option.isSome_some, if_pos rfl]
  obtain ⟨skipped, after, -, -, hmoved⟩ := Head.next_of_some hnext
  obtain ⟨more, hmore, hagain⟩ := Head.next_of_after hahead hslash hnext
    (htext ▸ length_afterWord_le h.next.2.ahead)
  refine ⟨by rw [hmoved], htext, more, hmore, fun text' => ?_⟩
  rw [Reader.nextIf_apply, hagain, Option.bind_some, hcontinues]
  rfl

/-- **The rest of a word is read the same whatever comes after it**, up to
the look at what does. The room and the head at that look are those of the
run that is given. -/
theorem tailFrom_of_after {word found kept text : Bytes} {room : Nat}
    (hcomment : h.inComment = false) (htext : afterWord h.ahead = text)
    (hahead : h.ahead = kept ++ text)
    (hrun : tailFrom word room h = .ok found h') :
    ∃ (room' : Nat) (behind : Head), behind.inComment = false ∧ behind.ahead = text ∧
      h' = behind.next.2.retract ∧ ∀ text',
        tailFrom word room { h with ahead := kept ++ text' } =
          tailFrom found.reverse room' { behind with ahead := text' } := by
  fun_induction tailFrom word room h generalizing kept with
  | case1 | case4 => cases hrun
  | case2 word h b h₁ hstep room ih =>
    obtain ⟨hcomment₁, htext₁, more, hmore, hagain⟩ :=
      nextIf_of_after hcomment htext hahead hstep
    obtain ⟨room', behind, hoff, hbehind, hend, hrest⟩ := ih hcomment₁ htext₁ hmore hrun
    refine ⟨room', behind, hoff, hbehind, hend, fun text' => ?_⟩
    rw [tailFrom_of_some (hagain text'), hrest]
  | case3 word room h h₁ hstep =>
    cases hrun
    rw [Reader.nextIf_apply, EStateM.Result.ok.injEq] at hstep
    obtain ⟨hbind, rfl⟩ := hstep
    rw [afterWord_eq hcomment, hbind, Option.isSome_none, if_neg Bool.false_ne_true] at htext
    obtain rfl : kept = [] := by
      rwa [htext, eq_comm, List.append_left_eq_self] at hahead
    refine ⟨room, h, hcomment, htext, ?_, fun text' => ?_⟩
    · rw [hbind]
      rfl
    · rw [List.reverse_reverse]
      rfl

/-- Where nothing is added to a word, there was but the look at what comes
after it. -/
theorem tailFrom_of_length_le {word found : Bytes} {room : Nat}
    (hrun : tailFrom word room h = .ok found h') (hlength : found.length ≤ word.length) :
    found = word.reverse ∧ h' = h.next.2.retract := by
  cases hstep : Reader.nextIf continues h with
  | error failure h₁ => exact absurd hstep Reader.nextIf_ne_error
  | ok read h₁ =>
    cases read with
    | none =>
      rw [tailFrom_of_none hstep] at hrun
      cases hrun
      rw [Reader.nextIf_apply, EStateM.Result.ok.injEq] at hstep
      obtain ⟨hbind, rfl⟩ := hstep
      exact ⟨rfl, by rw [hbind]; rfl⟩
    | some b =>
      -- a byte that goes on makes the word longer
      rcases Nat.lt_or_ge room (run h).length with hgt | hle
      · obtain ⟨_, herror⟩ := tailFrom_of_gt word hgt
        rw [herror] at hrun
        cases hrun
      · obtain ⟨_, hread⟩ := tailFrom_of_le word hle
        rw [hread] at hrun
        cases hrun
        rw [run_of_some hstep] at hlength
        simp only [List.length_append, List.length_reverse, List.length_cons] at hlength
        omega

/-- A keyword has as many letters as its name. -/
theorem length_of_keyword? {word : Bytes} {k : Keyword} (hkeyword : keyword? word = some k) :
    word.length = k.name.toList.length := by
  rw [keyword?, Keyword.ofWord?] at hkeyword
  have hname : k.name.toList = word.text.toList.map Char.toUpper := by
    simpa using List.find?_some hkeyword
  rw [hname, List.length_map, Bytes.toList_text, List.length_map]

end Word

/-! ## Keywords -/

namespace Reader

/-- A reader gives nothing but values of a kind. -/
def Gives {α : Type} (P : α → Prop) (x : Reader α) : Prop := ∀ h a h', x h = .ok a h' → P a

theorem Gives.pure {α : Type} {P : α → Prop} {a : α} (ha : P a) : Gives P (pure a : Reader α) := by
  rintro h _ _ ⟨⟩
  exact ha

theorem Gives.bind {α β : Type} {P : β → Prop} {x : Reader α} {f : α → Reader β}
    (hf : ∀ a, (f a).Gives P) : (x >>= f).Gives P := by
  intro h b h'' hrun
  obtain ⟨a, h', -, hrest⟩ := bind_eq_ok hrun
  exact hf a h' b h'' hrest

end Reader

namespace Lexeme

open Reader

variable {options : Options} {h h' : Head} {t : Token} {k : Keyword}

/-- Nothing is a keyword but what is read as a word. -/
theorem gives_readFrom (options : Options) (start : Nat) {b : Byte}
    (hword : ¬ (b.isWord = true ∧ b.isDigit = false)) :
    (readFrom options start b).Gives fun t => t.isKeyword k = false := by
  rw [readFrom]
  split
  · exact .bind fun _ => .pure rfl
  split
  · exact .bind fun _ => .pure rfl
  split
  · exact .bind fun operator => by cases operator <;> exact .pure rfl
  split
  · exact .bind fun _ => .bind fun _ => .pure rfl
  · rename_i hdigit
    rw [if_neg fun h => hword ⟨h, Bool.eq_false_iff.mpr hdigit⟩]
    exact .pure rfl

/-- A keyword that opens no compound is read as a word and is its token. -/
theorem readToken_cases {start : Nat} {b : Byte} (hopens : k.opensCompound = false)
    (hread : Word.readToken options start b h = .ok t h') (hkeyword : t.isKeyword k = true) :
    ∃ word, Word.read options b h = .ok word h' ∧ Word.keyword? word = some k ∧
      t = { kind := .keyword k, text := word.text, offset := start } := by
  obtain ⟨word, h₁, hword, hrest⟩ := bind_eq_ok hread
  cases hname : Word.keyword? word with
  | none =>
    rw [hname] at hrest
    cases hrest
    cases hkeyword
  | some k' =>
    rw [hname] at hrest
    dsimp only at hrest
    by_cases hopens' : k'.opensCompound = true
    · rw [if_pos hopens'] at hrest
      have hother : t.isKeyword k = false := by
        refine Gives.bind (P := fun t => t.isKeyword k = false) (fun found => ?_) _ _ _ hrest
        cases found with
        | some _ => exact .pure rfl
        | none =>
          refine .pure (decide_eq_false ?_)
          rintro ⟨⟩
          rw [hopens] at hopens'
          cases hopens'
      rw [hkeyword] at hother
      cases hother
    · rw [if_neg hopens'] at hrest
      cases hrest
      obtain ⟨rfl⟩ := of_decide_eq_true hkeyword
      exact ⟨word, hword, hname, rfl⟩

/-- So it is wherever one is read: the word begins with the first byte that
is not blank. -/
theorem read_cases_of_keyword (hopens : k.opensCompound = false)
    (hread : read options h = .ok t h') (hkeyword : t.isKeyword k = true) :
    ∃ b h₁ word, skipBlanksFrom h = (some b, h₁) ∧ b.isWord = true ∧
      Word.read options b { h₁ with tokenStart := h₁.column - 1 } = .ok word h' ∧
      Word.keyword? word = some k ∧
      t = { kind := .keyword k, text := word.text, offset := h₁.column - 1 } := by
  rw [read_eq] at hread
  rcases hskip : skipBlanksFrom h with ⟨_ | b, h₁⟩ <;> rw [hskip] at hread
  · cases hread
    cases hkeyword
  · dsimp only at hread
    by_cases hword : b.isWord = true ∧ b.isDigit = false
    · rw [readFrom_of_word options _ hword.1 hword.2] at hread
      obtain ⟨word, hfound, hname, ht⟩ := readToken_cases hopens hread hkeyword
      exact ⟨b, h₁, word, rfl, hword.1, hfound, hname, ht⟩
    · have hother : t.isKeyword k = false := gives_readFrom options _ hword _ _ _ hread
      rw [hkeyword] at hother
      cases hother

/-- **With other bytes after it the same keyword is read**, if a keyword of
its name is. The head is then in a comment or not by the bytes after
it. -/
theorem read_of_after {h₁ h₂ : Head} {t₁ t₂ : Token} {kept text text' : Bytes}
    (hopens : k.opensCompound = false) (hahead : h.ahead = kept ++ text)
    (htext : Bytes.afterWord (skipBlanksFrom h).2.ahead = text)
    (hread₁ : read options h = .ok t₁ h₁) (hkeyword₁ : t₁.isKeyword k = true)
    (hread₂ : read options { h with ahead := kept ++ text' } = .ok t₂ h₂)
    (hkeyword₂ : t₂.isKeyword k = true) :
    t₂ = t₁ ∧ h₁.inComment = text.opensComment ∧ h₂.inComment = text'.opensComment := by
  obtain ⟨b, g₁, word₁, hskip₁, hword, hfound₁, hname₁, rfl⟩ :=
    read_cases_of_keyword hopens hread₁ hkeyword₁
  obtain ⟨c, g₂, word₂, hskip₂, -, hfound₂, hname₂, rfl⟩ :=
    read_cases_of_keyword hopens hread₂ hkeyword₂
  have hslash : b ≠ Byte.slash := by
    rintro rfl
    cases hword
  rw [hskip₁] at htext
  obtain ⟨more, hmore, hagain⟩ := skipBlanksFrom_of_after hahead hslash hskip₁
    (htext ▸ Word.length_afterWord_le g₁.ahead)
  cases (hagain text').symm.trans hskip₂
  -- both words are read to one look, and the second does not go on there
  obtain ⟨room, behind, hcomment, hbehind, hend₁, hrest⟩ :=
    Word.tailFrom_of_after (h := { g₁ with tokenStart := g₁.column - 1 })
      (read_of_skipBlanksFrom hskip₁).2 htext hmore hfound₁
  have hlength : word₂.length = word₁.length :=
    (Word.length_of_keyword? hname₂).trans (Word.length_of_keyword? hname₁).symm
  obtain ⟨hsame, hend₂⟩ := Word.tailFrom_of_length_le ((hrest text').symm.trans hfound₂)
    (by rw [hlength, List.length_reverse])
  rw [List.reverse_reverse] at hsame
  refine ⟨by rw [hsame], ?_, ?_⟩
  · rw [hend₁, Head.inComment_retract_next hcomment, hbehind]
  · rw [hend₂]
    exact Head.inComment_retract_next (h := { behind with ahead := text' }) hcomment

end Lexeme

end BasicLexer
