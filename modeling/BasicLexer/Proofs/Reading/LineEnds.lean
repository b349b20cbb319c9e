import BasicLexer.Proofs.Reading.Literals
import BasicLexer.Proofs.Reading.Respelled

/-!
# Reading — lines that end in another way

The end of a line is a newline, or one with carriage returns before it. No
such byte goes on with a word, a number or an operator, opens or closes a
comment, or closes a literal; and all are blanks. So lines that are the same
but for their ends are read in step until one of those bytes is to be read,
and then both are read to the end (`Head.Ending`). Other ends are one way of
spelling a line (`Respelling.lineEnds`), in which nothing is the same but the
tokens: a string that does not close may be too long in one line and not in
the other.
-/

namespace BasicLexer

namespace Bytes

/-- Bytes that a line may end with: newlines and carriage returns. -/
structure Ends (ending : Bytes) : Prop where
  nonempty : ending ≠ []
  ends : ∀ b ∈ ending, b = Byte.newline ∨ b = Byte.carriageReturn

namespace Ends

variable {ending : Bytes}

theorem not_mem (hending : ending.Ends) {b : Byte} (hnewline : b ≠ Byte.newline)
    (hreturn : b ≠ Byte.carriageReturn) : b ∉ ending :=
  fun hb => (hending.ends b hb).elim hnewline hreturn

end Ends

end Bytes

/-! ## What is seen of the end of a line -/

namespace Sight

/-- What is to be seen of the same bytes before two ends: one byte of them,
or the first of either end, or nothing. -/
inductive BeforeEnds (passed : Nat) (rest ending ending' : Bytes) : Sight → Sight → Prop
  | byte {skipped after : Bytes} (b : Byte) (hrest : rest = skipped ++ b :: after) :
      BeforeEnds passed rest ending ending' (.byte b (passed + skipped.length + 1))
        (.byte b (passed + skipped.length + 1))
  | ends {b b' : Byte} {more more' : Bytes} (hending : ending = b :: more)
      (hending' : ending' = b' :: more') :
      BeforeEnds passed rest ending ending' (.byte b (passed + rest.length + 1))
        (.byte b' (passed + rest.length + 1))
  | hidden (isOpen : Bool) :
      BeforeEnds passed rest ending ending' (.hidden isOpen) (.hidden isOpen)

/-- Bytes passed over before the others. -/
theorem BeforeEnds.pass {passed : Nat} {rest ending ending' : Bytes} {sight sight' : Sight}
    (bytes : Bytes) (hseen : BeforeEnds (passed + bytes.length) rest ending ending' sight sight') :
    BeforeEnds passed (bytes ++ rest) ending ending' sight sight' := by
  cases hseen with
  | @byte skipped after b hrest =>
    have hsplit : bytes ++ rest = (bytes ++ skipped) ++ b :: after := by
      rw [hrest, List.append_assoc]
    have hlength : passed + bytes.length + skipped.length = passed + (bytes ++ skipped).length := by
      rw [List.length_append, Nat.add_assoc]
    rw [hlength]
    exact .byte b hsplit
  | ends hending hending' =>
    have hlength : passed + bytes.length + rest.length = passed + (bytes ++ rest).length := by
      rw [List.length_append, Nat.add_assoc]
    rw [hlength]
    exact .ends hending hending'
  | hidden isOpen => exact .hidden isOpen

/-- The end of a line closes no comment. -/
theorem ofRest_true_of_ends (passed : Nat) {ending : Bytes}
    (hending : ∀ b ∈ ending, b = Byte.newline ∨ b = Byte.carriageReturn) :
    ofRest true passed ending = .hidden true := by
  induction ending generalizing passed with
  | nil => rfl
  | cons b rest ih =>
    obtain ⟨hb, hrest⟩ := List.forall_mem_cons.mp hending
    have hcloses : ¬ (b = Byte.asterisk) := by rcases hb with rfl | rfl <;> decide
    cases rest with
    | nil => rfl
    | cons c rest =>
      rw [ofRest, if_neg fun h => hcloses h.1]
      exact ih _ hrest

/-- **The same is seen before either end.** -/
theorem ofRest_append_ends (inComment : Bool) (passed : Nat) (rest : Bytes)
    {ending ending' : Bytes} (hending : ending.Ends) (hending' : ending'.Ends) :
    BeforeEnds passed rest ending ending' (ofRest inComment passed (rest ++ ending))
      (ofRest inComment passed (rest ++ ending')) := by
  -- an end is no byte that a comment begins or ends with
  have hfirst {ending : Bytes} (hending : ending.Ends) {c : Byte} (hc : c ∈ ending.head?) :
      c ≠ Byte.slash ∧ c ≠ Byte.asterisk := by
    rcases hending.ends c (List.mem_of_head? hc) with rfl | rfl <;> decide
  fun_induction ofRest inComment passed rest with
  | case1 passed =>
    rw [List.nil_append, List.nil_append, ofRest_true_of_ends _ hending.ends,
      ofRest_true_of_ends _ hending'.ends]
    exact .hidden true
  | case2 passed b =>
    have hinside {ending : Bytes} (hending : ending.Ends) :
        ofRest true passed ([b] ++ ending) = .hidden true := by
      obtain ⟨c, more, rfl⟩ := List.exists_cons_of_ne_nil hending.nonempty
      rw [List.singleton_append, ofRest, if_neg fun h => (hfirst hending rfl).1 h.2]
      exact ofRest_true_of_ends _ hending.ends
    rw [hinside hending, hinside hending']
    exact .hidden true
  | case3 passed b c rest hcloses ih =>
    rw [List.cons_append, List.cons_append, List.cons_append, List.cons_append, ofRest, ofRest,
      if_pos hcloses, if_pos hcloses]
    exact ih.pass [b, c]
  | case4 passed b c rest hcloses ih =>
    rw [List.cons_append, List.cons_append, List.cons_append, List.cons_append, ofRest, ofRest,
      if_neg hcloses, if_neg hcloses]
    exact ih.pass [b]
  | case5 passed =>
    obtain ⟨c, more, rfl⟩ := List.exists_cons_of_ne_nil hending.nonempty
    obtain ⟨c', more', rfl⟩ := List.exists_cons_of_ne_nil hending'.nonempty
    rw [List.nil_append, List.nil_append,
      ofRest_of_not_opens _ (.inl (hfirst hending rfl).1),
      ofRest_of_not_opens _ (.inl (hfirst hending' rfl).1)]
    exact .ends rfl rfl
  | case6 passed b =>
    rw [List.singleton_append, List.singleton_append,
      ofRest_of_not_opens _ (.inr fun c hc => hfirst hending hc),
      ofRest_of_not_opens _ (.inr fun c hc => hfirst hending' hc)]
    exact @BeforeEnds.byte _ _ _ _ [] [] b rfl
  | case7 passed b c rest hline =>
    rw [List.cons_append, List.cons_append, List.cons_append, List.cons_append, ofRest, ofRest,
      if_pos hline, if_pos hline]
    exact .hidden false
  | case8 passed b c rest hline hblock ih =>
    rw [List.cons_append, List.cons_append, List.cons_append, List.cons_append, ofRest, ofRest,
      if_neg hline, if_neg hline, if_pos hblock, if_pos hblock]
    exact ih.pass [b, c]
  | case9 passed b c rest hline hblock =>
    rw [List.cons_append, List.cons_append, List.cons_append, List.cons_append, ofRest, ofRest,
      if_neg hline, if_neg hline, if_neg hblock, if_neg hblock]
    exact @BeforeEnds.byte _ _ _ _ [] (c :: rest) b rfl

end Sight

/-! ## Heads before two ends -/

namespace Head

/-- The heads at one place of two lines that are the same but for their ends:
before the same bytes and then the ends, or both at the end. Where a line
ends, no column is compared. -/
inductive Ending : Head → Head → Prop
  | within {h h' : Head} (rest : Bytes) {ending ending' : Bytes} (hending : ending.Ends)
      (hending' : ending'.Ends) (hahead : h.ahead = rest ++ ending)
      (hahead' : h'.ahead = rest ++ ending') (hcolumn : h'.column = h.column)
      (hcomment : h'.inComment = h.inComment) : Ending h h'
  | ended {h h' : Head} (hahead : h.ahead = []) (hahead' : h'.ahead = [])
      (hcomment : h'.inComment = h.inComment) : Ending h h'

namespace Ending

variable {h h' : Head}

theorem inComment (hheads : Ending h h') : h'.inComment = h.inComment := by
  cases hheads with
  | within _ _ _ _ _ _ hcomment => exact hcomment
  | ended _ _ hcomment => exact hcomment

/-- **What a read does** before the ends. The same byte is seen, or the first
of either end, or nothing; and where a byte is taken back the heads are at one
place again. -/
inductive Reads (h h' : Head) : Prop
  | byte (b : Byte) (hnext : h.next.1 = some b) (hnext' : h'.next.1 = some b)
      (hafter : Ending h.next.2 h'.next.2) (hback : Ending h.next.2.retract h'.next.2.retract)
      (hcolumn : h'.next.2.column = h.next.2.column)
  | ends {b b' : Byte} (hnext : h.next.1 = some b) (hnext' : h'.next.1 = some b')
      (hending : Bytes.Ends (b :: h.next.2.ahead))
      (hending' : Bytes.Ends (b' :: h'.next.2.ahead))
      (hcomment : h.next.2.inComment = false) (hcomment' : h'.next.2.inComment = false)
      (hback : Ending h.next.2.retract h'.next.2.retract)
  | none (hnext : h.next.1 = .none) (hnext' : h'.next.1 = .none)
      (hafter : Ending h.next.2 h'.next.2)

/-- **Reads before the ends keep step**: what is seen of either line is told
by `Sight.ofRest_append_ends`. -/
theorem reads (hheads : Ending h h') : Reads h h' := by
  cases hheads with
  | ended hahead hahead' hcomment =>
    refine .none (next_of_ahead_nil hahead) (next_of_ahead_nil hahead') ?_
    refine .ended (ahead_next_of_none (next_of_ahead_nil hahead))
      (ahead_next_of_none (next_of_ahead_nil hahead')) ?_
    rw [next, next, hahead, hahead', hcomment]
    cases h.inComment <;> rfl
  | @within rest ending ending' hending hending' hahead hahead' hcolumn hcomment =>
    have hseen := Sight.ofRest_append_ends h.inComment 0 rest hending hending'
    rw [← hahead, ← hahead'] at hseen
    nth_rewrite 2 [← hcomment] at hseen
    generalize hsight : Sight.ofRest h.inComment 0 h.ahead = sight at hseen
    generalize hsight' : Sight.ofRest h'.inComment 0 h'.ahead = sight' at hseen
    cases hseen with
    | @byte skipped after b hrest =>
      rw [hrest, List.append_assoc, List.cons_append] at hahead hahead'
      rw [Nat.zero_add] at hsight hsight'
      have hread := next_of_sight hahead hsight
      have hread' := next_of_sight hahead' hsight'
      refine .byte b (by rw [hread]) (by rw [hread']) ?_ ?_ (by rw [hread, hread', hcolumn])
      · rw [hread, hread']
        exact .within after hending hending' rfl rfl (by rw [hcolumn]) rfl
      · rw [hread, hread']
        exact .within (b :: after) hending hending' rfl rfl (by rw [retract, retract, hcolumn]) rfl
    | @ends b b' more more' hmore hmore' =>
      subst hmore hmore'
      rw [Nat.zero_add] at hsight hsight'
      have hread := next_of_sight hahead hsight
      have hread' := next_of_sight hahead' hsight'
      refine .ends (by rw [hread]) (by rw [hread']) (by rwa [hread]) (by rwa [hread'])
        (by rw [hread]) (by rw [hread']) ?_
      rw [hread, hread']
      exact .within [] hending hending' rfl rfl (by rw [retract, retract, hcolumn]) rfl
    | hidden isOpen =>
      refine .none (by rw [next, hsight]) (by rw [next, hsight']) (.ended ?_ ?_ ?_)
      · exact ahead_next_of_none (by rw [next, hsight])
      · exact ahead_next_of_none (by rw [next, hsight'])
      · rw [next, next, hsight, hsight']

end Ending

end Head

/-! ## Readers before two ends -/

/-- Whether two runs tally on lines that differ in their ends. Where one is
refused so is the other, but for no matter what. -/
abbrev Reader.TallyEnds {α : Type} (values : α → α → Prop)
    (run run' : EStateM.Result (Failure Cause) Head α) : Prop :=
  Reader.Tally Head.Ending (fun _ _ => True) values run run'

namespace Head.Ending

open Reader

variable {h h' : Head}

/-- A byte that ends a line is accepted by no reader of one byte, and taken
back. -/
theorem tally_nextIf {α : Type} {accepts : Byte → Option α} {respell : α → α}
    (haccepts : ∀ b, accepts b = (accepts b).map respell)
    (hnewline : accepts Byte.newline = none) (hreturn : accepts Byte.carriageReturn = none)
    (hheads : Ending h h') :
    TallyEnds (fun a a' => a' = a.map respell) (nextIf accepts h) (nextIf accepts h') := by
  have hrefuses {b : Byte} {rest : Bytes} (hending : Bytes.Ends (b :: rest)) :
      accepts b = none := by
    rcases hending.ends b List.mem_cons_self with rfl | rfl
    · exact hnewline
    · exact hreturn
  rw [nextIf_apply, nextIf_apply]
  cases hheads.reads with
  | byte b hnext hnext' hafter hback hcolumn =>
    rw [hnext, hnext', Option.bind_some]
    refine .ok (haccepts b) ?_
    split
    · exact hafter
    · exact hback
  | @ends b b' hnext hnext' hending hending' hcomment hcomment' hback =>
    rw [hnext, hnext', Option.bind_some, Option.bind_some, hrefuses hending, hrefuses hending']
    exact .ok rfl hback
  | none hnext hnext' hafter =>
    have hlast := lastRead_next h
    have hlast' := lastRead_next h'
    rw [hnext] at hlast
    rw [hnext'] at hlast'
    rw [hnext, hnext', Option.bind_none, Option.isSome_none, if_neg Bool.false_ne_true,
      if_neg Bool.false_ne_true, retract_of_atEnd hlast, retract_of_atEnd hlast']
    exact .ok rfl hafter

/-- The end of a line is skipped with the blanks. -/
theorem skipBlanksFrom_of_ends (hcomment : h.inComment = false)
    (hends : ∀ b ∈ h.ahead, b = Byte.newline ∨ b = Byte.carriageReturn) :
    (skipBlanksFrom h).1 = none ∧ (skipBlanksFrom h).2.ahead = [] ∧
      (skipBlanksFrom h).2.inComment = false := by
  have hread {h : Head} (hcomment : h.inComment = false) {b : Byte} (hnext : h.next.1 = some b)
      (hends : ∀ b ∈ h.ahead, b = Byte.newline ∨ b = Byte.carriageReturn) :
      (b = Byte.newline ∨ b = Byte.carriageReturn) ∧ h.next.2.inComment = false ∧
        ∀ b ∈ h.next.2.ahead, b = Byte.newline ∨ b = Byte.carriageReturn := by
    obtain ⟨skipped, after, hahead, -, hmoved⟩ := next_of_some hnext
    rw [hahead] at hends
    refine ⟨hends b (List.mem_append_right _ List.mem_cons_self), by rw [hmoved], ?_⟩
    rw [hmoved]
    exact fun c hc => hends c (List.mem_append_right _ (List.mem_cons_of_mem b hc))
  fun_induction skipBlanksFrom h with
  | case1 h b hnext hblank ih =>
    obtain ⟨-, hcomment, hafter⟩ := hread hcomment hnext hends
    exact ih hcomment hafter
  | case2 h b hnext hblank =>
    rcases (hread hcomment hnext hends).1 with rfl | rfl <;> exact absurd rfl hblank
  | case3 h hnext =>
    refine ⟨rfl, ahead_next_of_none hnext, ?_⟩
    cases hahead : h.ahead with
    | nil => rw [next, hahead, hcomment]; rfl
    | cons b rest =>
      rw [hahead] at hends
      have hb : b ≠ Byte.slash := by
        rcases hends b List.mem_cons_self with rfl | rfl <;> decide
      rw [next, hahead, hcomment, Sight.ofRest_of_not_opens 0 (.inl hb)] at hnext
      cases hnext

theorem skipBlanksFrom_eq (hheads : Ending h h') :
    (skipBlanksFrom h').1 = (skipBlanksFrom h).1 ∧
      Ending (skipBlanksFrom h).2 (skipBlanksFrom h').2 ∧
      ((skipBlanksFrom h).1.isSome →
        (skipBlanksFrom h').2.column = (skipBlanksFrom h).2.column) := by
  -- blanks are skipped in step, up to the first byte that ends either line
  fun_induction skipBlanksFrom h generalizing h' with
  | case1 h b hnext hblank ih =>
    cases hheads.reads with
    | byte c hnext₁ hnext' hafter hback hcolumn =>
      obtain rfl : b = c := Option.some.inj (hnext.symm.trans hnext₁)
      rw [skipBlanksFrom_of_some hnext', if_pos hblank]
      exact ih hafter
    | @ends c c' hnext₁ hnext' hending hending' hcomment hcomment' hback =>
      have hblank' : c'.isBlank = true := by
        rcases hending'.ends c' List.mem_cons_self with rfl | rfl <;> rfl
      have hends := skipBlanksFrom_of_ends hcomment fun b hb =>
        hending.ends b (List.mem_cons_of_mem _ hb)
      have hends' := skipBlanksFrom_of_ends hcomment' fun b hb =>
        hending'.ends b (List.mem_cons_of_mem _ hb)
      rw [skipBlanksFrom_of_some hnext', if_pos hblank', hends.1, hends'.1]
      exact ⟨rfl, .ended hends.2.1 hends'.2.1 (hends'.2.2.trans hends.2.2.symm),
        fun hsome => absurd hsome Bool.false_ne_true⟩
    | none hnext₁ => cases hnext.symm.trans hnext₁
  | case2 h b hnext hblank =>
    cases hheads.reads with
    | byte c hnext₁ hnext' hafter hback hcolumn =>
      obtain rfl : b = c := Option.some.inj (hnext.symm.trans hnext₁)
      rw [skipBlanksFrom_of_some hnext', if_neg hblank]
      exact ⟨rfl, hafter, fun _ => hcolumn⟩
    | @ends c _ hnext₁ _ hending =>
      obtain rfl : b = c := Option.some.inj (hnext.symm.trans hnext₁)
      rcases hending.ends b List.mem_cons_self with rfl | rfl <;> exact absurd rfl hblank
    | none hnext₁ => cases hnext.symm.trans hnext₁
  | case3 h hnext =>
    cases hheads.reads with
    | byte _ hnext₁ | ends hnext₁ => cases hnext.symm.trans hnext₁
    | none hnext₁ hnext' hafter =>
      rw [skipBlanksFrom_of_none hnext']
      exact ⟨rfl, hafter, fun hsome => absurd hsome Bool.false_ne_true⟩

/-- Bytes passed over before the ends. -/
theorem forward {rest ending ending' : Bytes} (hending : ending.Ends) (hending' : ending'.Ends)
    (hahead : h.ahead = rest ++ ending) (hahead' : h'.ahead = rest ++ ending')
    (hcolumn : h'.column = h.column) (hcomment : h'.inComment = h.inComment) {reach : Nat}
    (hreach : reach ≤ rest.length) :
    Ending { h.forward reach with lastRead := .consumed }
      { h'.forward reach with lastRead := .consumed } := by
  refine .within (rest.drop reach) hending hending' ?_ ?_ ?_ hcomment
  · exact (congrArg (List.drop reach) hahead).trans (List.drop_append_of_le_length hreach)
  · exact (congrArg (List.drop reach) hahead').trans (List.drop_append_of_le_length hreach)
  · exact congrArg (· + reach) hcolumn

end Head.Ending

namespace Quotation

open Reader

variable {options : Options} {h h' : Head}

/-- No string closes in the end of a line. -/
theorem tally_readString_ends (hheads : h.Ending h') :
    TallyEnds Eq (readString options h) (readString options h') := by
  cases hheads with
  | ended hahead hahead' hcomment =>
    rw [readString, readString, hahead, hahead']
    exact .error trivial
  | @within rest ending ending' hending hending' hahead hahead' hcolumn hcomment =>
    have hquote := hending.not_mem (b := Byte.doubleQuote) (by decide) (by decide)
    have hquote' := hending'.not_mem (b := Byte.doubleQuote) (by decide) (by decide)
    rcases readString_cases options h with ⟨found, reach, hclosed, hrun⟩ | ⟨hopen, _, _, hrun⟩ <;>
      rcases readString_cases options h' with
        ⟨found', reach', hclosed', hrun'⟩ | ⟨hopen', _, _, hrun'⟩ <;>
      rw [hrun, hrun']
    · rw [hahead] at hclosed
      obtain ⟨hsame, hreach⟩ := @bodyFrom_append _ _ ending' _ _ _ _ _ hquote hclosed
      rw [← hahead', hclosed'] at hsame
      cases hsame
      rw [Nat.zero_add] at hreach
      exact .ok rfl (.forward hending hending' hahead hahead' hcolumn hcomment hreach)
    · rw [hahead] at hclosed
      rw [hahead'] at hopen'
      exact absurd (bodyFrom_append hquote hclosed).1 (hopen' _ _)
    · rw [hahead'] at hclosed'
      rw [hahead] at hopen
      exact absurd (bodyFrom_append hquote' hclosed').1 (hopen _ _)
    · exact .error trivial

/-- Nor does a character. -/
theorem tally_readCharacter_ends (hheads : h.Ending h') :
    TallyEnds Eq (readCharacter h) (readCharacter h') := by
  have hread := readCharacter_eq h
  have hread' := readCharacter_eq h'
  have hsame : character? h'.ahead = character? h.ahead := by
    cases hheads with
    | ended hahead hahead' => rw [hahead, hahead']
    | within rest hending hending' hahead hahead' =>
      rw [hahead, hahead', character?_append rest (hending.not_mem (by decide) (by decide)),
        character?_append rest (hending'.not_mem (by decide) (by decide))]
  rw [hsame] at hread'
  rcases hrun : readCharacter h with ⟨c, h₁⟩ | ⟨failure, h₁⟩ <;>
    rcases hrun' : readCharacter h' with ⟨c', h₁'⟩ | ⟨failure', h₁'⟩ <;>
    rw [hrun] at hread <;> rw [hrun'] at hread'
  · obtain ⟨reach, hfound, rfl⟩ := hread
    obtain ⟨reach', hfound', rfl⟩ := hread'
    cases hfound.symm.trans hfound'
    refine .ok rfl ?_
    cases hheads with
    | ended hahead => rw [hahead] at hfound; cases hfound
    | within rest hending hending' hahead hahead' hcolumn hcomment =>
      rw [hahead, character?_append rest (hending.not_mem (by decide) (by decide))] at hfound
      exact .forward hending hending' hahead hahead' hcolumn hcomment (reach_character? hfound)
  · obtain ⟨reach, hfound, -⟩ := hread
    cases hfound.symm.trans hread'.1
  · obtain ⟨reach, hfound, -⟩ := hread'
    cases hfound.symm.trans hread.1
  · obtain ⟨-, rfl, -⟩ := hread
    obtain ⟨-, rfl, -⟩ := hread'
    exact .error trivial

end Quotation

/-- **The end of a line is a matter of spelling.** A line says the same with
any other end: it is refused if the other is, and where it ends is its own. -/
def Respelling.lineEnds : Respelling where
  byte := id
  heads := Head.Ending
  ends _ _ := True
  refused _ _ := True
  upper_byte _ := rfl
  inComment := Head.Ending.inComment
  ends_column _ := trivial
  ends_refl _ := trivial
  noted := by
    rintro h h' n n' hheads -
    cases hheads with
    | within rest hending hending' hahead hahead' hcolumn hcomment =>
      exact .within rest hending hending' hahead hahead' hcolumn hcomment
    | ended hahead hahead' hcomment => exact .ended hahead hahead' hcomment
  refused_of_code _ _ := trivial
  nextIf haccepts hnewline hreturn _ _ hheads := hheads.tally_nextIf haccepts hnewline hreturn
  skipBlanks := by
    rintro h h' hheads
    rw [Option.map_id_apply]
    exact hheads.skipBlanksFrom_eq
  readString := by
    rintro options h h' hheads
    refine (Quotation.tally_readString_ends hheads).mono ?_
    rintro found _ rfl
    exact (List.map_id found).symm
  readCharacter := by
    rintro h h' hheads
    refine (Quotation.tally_readCharacter_ends hheads).mono ?_
    rintro b _ rfl
    exact ⟨rfl, rfl⟩

end BasicLexer
