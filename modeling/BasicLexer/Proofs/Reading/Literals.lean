import BasicLexer.Proofs.Reading.Visible

/-!
# Reading — where literals close

A string and a character are read to the quote that closes them. Without
that quote ahead neither is read: `Quotation.bodyFrom_ne_closed`, and
`Quotation.readCharacter_eq`, which tells a character literal by the bytes
ahead alone. What stands behind the quote has no say
(`Quotation.bodyFrom_append`, `Quotation.character?_append`).
-/

namespace BasicLexer

namespace Quotation

/-! ## Strings -/

/-- A string does not close where there is no quote to close it. -/
theorem bodyFrom_ne_closed {rest : Bytes} (hquote : Byte.doubleQuote ∉ rest)
    (contents : Bytes) (passed room : Nat) (found : Bytes) (reach : Nat) :
    bodyFrom contents passed room rest ≠ .closed found reach := by
  fun_induction bodyFrom contents passed room rest with
  | case1 | case3 | case4 | case6 => rintro ⟨⟩
  | case2 | case5 => exact absurd List.mem_cons_self hquote
  | case7 contents passed room c rest _ _ ih =>
    exact ih fun h => hquote (List.mem_cons_of_mem _ (List.mem_cons_of_mem _ h))
  | case8 contents passed room b c rest _ _ _ ih =>
    exact ih fun h => hquote (List.mem_cons_of_mem _ h)

/-- A string that closes before bytes without a quote closes before any
such bytes, and at the same place. -/
theorem bodyFrom_append {rest ended ended' : Bytes} {contents found : Bytes}
    {passed room reach : Nat} (hquote : Byte.doubleQuote ∉ ended)
    (hclosed : bodyFrom contents passed room (rest ++ ended) = .closed found reach) :
    bodyFrom contents passed room (rest ++ ended') = .closed found reach ∧
      reach ≤ passed + rest.length := by
  fun_induction bodyFrom contents passed room rest with
  | case1 contents passed room => exact absurd hclosed (bodyFrom_ne_closed hquote _ _ _ _ _)
  | case2 contents passed room =>
    have hread (ended : Bytes) : bodyFrom contents passed room ([Byte.doubleQuote] ++ ended) =
        .closed contents.reverse (passed + 1) := by
      cases ended <;> exact if_pos rfl
    rw [hread] at hclosed ⊢
    cases hclosed
    exact ⟨rfl, Nat.le_refl _⟩
  | case3 contents passed b hb | case4 contents passed room b hb =>
    have hquote' : Byte.doubleQuote ∉ [b] ++ ended := by
      simpa using ⟨Ne.symm hb, hquote⟩
    exact absurd hclosed (bodyFrom_ne_closed hquote' _ _ _ _ _)
  | case5 contents passed room c rest =>
    rw [List.cons_append, List.cons_append, bodyFrom, if_pos rfl] at hclosed ⊢
    cases hclosed
    exact ⟨rfl, Nat.add_le_add_left (Nat.succ_le_succ (Nat.zero_le _)) _⟩
  | case6 contents passed b c rest hb =>
    rw [List.cons_append, List.cons_append, bodyFrom, if_neg hb, if_pos rfl] at hclosed
    cases hclosed
  | case7 contents passed room c rest hmore hb ih =>
    rw [List.cons_append, List.cons_append, bodyFrom, if_neg hb, if_neg hmore, if_pos rfl]
      at hclosed ⊢
    obtain ⟨hsame, hreach⟩ := ih hclosed
    refine ⟨hsame, ?_⟩
    simp only [List.length_cons]
    omega
  | case8 contents passed room b c rest hb hmore hescape ih =>
    rw [List.cons_append, List.cons_append, bodyFrom, if_neg hb, if_neg hmore, if_neg hescape]
      at hclosed ⊢
    obtain ⟨hsame, hreach⟩ := ih hclosed
    refine ⟨hsame, ?_⟩
    simp only [List.length_cons] at hreach ⊢
    omega

/-- What a string is read as is told by whether it closes. -/
theorem readString_cases (options : Options) (h : Head) :
    (∃ found reach, bodyFrom [] 0 options.maxToken h.ahead = .closed found reach ∧
      readString options h = .ok found { h.forward reach with lastRead := .consumed }) ∨
    ((∀ found reach, bodyFrom [] 0 options.maxToken h.ahead ≠ .closed found reach) ∧
      ∃ cause h', readString options h = .error (.reported cause) h') := by
  rw [readString]
  cases bodyFrom [] 0 options.maxToken h.ahead with
  | closed found reach => exact .inl ⟨found, reach, rfl, rfl⟩
  | tooLong reach => exact .inr ⟨nofun, _, _, rfl⟩
  | unterminated => exact .inr ⟨nofun, _, _, rfl⟩

/-! ## Characters -/

/-- The character that the bytes behind an opening quote stand for, if its
closing quote is where it should be, and how far that reaches. -/
def character? : Bytes → Option (Byte × Nat)
  | b :: c :: rest =>
    if b = Byte.backslash then
      if rest.head? = some Byte.singleQuote then some (unescape c, 3) else none
    else if c = Byte.singleQuote then some (b, 2) else none
  | _ => none

theorem reach_character? {rest : Bytes} {c : Byte} {reach : Nat}
    (hfound : character? rest = some (c, reach)) : reach ≤ rest.length := by
  match rest with
  | [] | [_] => cases hfound
  | b :: c :: rest =>
    rw [character?] at hfound
    split at hfound <;> split at hfound <;> cases hfound
    · rename_i hquote
      cases rest with
      | nil => cases hquote
      | cons => simp only [List.length_cons]; omega
    · simp only [List.length_cons]; omega

/-- Nor does a character, unless the quote is behind its first byte. -/
theorem character?_eq_none {bytes : Bytes} (hquote : Byte.singleQuote ∉ bytes.tail) :
    character? bytes = none := by
  match bytes with
  | [] | [_] => rfl
  | b :: c :: rest =>
    have hc : c ≠ Byte.singleQuote := fun h => hquote (h ▸ List.mem_cons_self)
    have hrest : rest.head? ≠ some Byte.singleQuote :=
      fun h => hquote (List.mem_cons_of_mem c (List.mem_of_head? h))
    rw [character?, if_neg hrest, if_neg hc, ite_self]

/-- Bytes without a quote behind the others close nothing. -/
theorem character?_append (rest : Bytes) {ended : Bytes} (hquote : Byte.singleQuote ∉ ended) :
    character? (rest ++ ended) = character? rest := by
  match rest with
  | [] => exact character?_eq_none fun h => hquote (List.mem_of_mem_tail h)
  | [b] => exact character?_eq_none hquote
  | [b, c] =>
    have hended : ended.head? ≠ some Byte.singleQuote := fun h => hquote (List.mem_of_head? h)
    simp [character?, hended]
  | b :: c :: d :: rest => rfl

/-- What comes after a byte goes by the byte. -/
theorem read_bind {α : Type} (f : Option Byte → Reader α) (h : Head) :
    (Reader.read >>= f) h = f h.read.1 h.read.2 := rfl

/-- **A character is what the bytes ahead stand for**, or it is refused. -/
theorem readCharacter_eq (h : Head) :
    match readCharacter h with
    | .ok c h' => ∃ reach, character? h.ahead = some (c, reach) ∧
        h' = { h.forward reach with lastRead := .consumed }
    | .error failure h' => character? h.ahead = none ∧
        failure = .reported .expectingClosingQuote ∧ h'.tokenStart = h.tokenStart := by
  have hclose (c : Byte) (h : Head) :
      (do if (← Reader.read) = some Byte.singleQuote then return c
          else Reader.fail .expectingClosingQuote : Reader Byte) h =
        if h.read.1 = some Byte.singleQuote then .ok c h.read.2
        else .error (.reported .expectingClosingQuote) h.read.2 := by
    rw [read_bind]
    split <;> rfl
  obtain ⟨behind, ahead, column, tokenStart, inComment, lastRead⟩ := h
  rw [readCharacter, readContent]
  simp only [bind_assoc, read_bind]
  match ahead with
  | [] => exact ⟨rfl, rfl, rfl⟩
  | [b] =>
    by_cases hb : b = Byte.backslash
    · subst hb
      exact ⟨rfl, rfl, rfl⟩
    · simp only [Head.read, hb, if_false, pure_bind, hclose]
      exact ⟨rfl, rfl, rfl⟩
  | b :: c :: rest =>
    by_cases hb : b = Byte.backslash
    · -- an escape: the byte after it is the content, whatever it is
      subst hb
      simp only [Head.read, if_true, readEscape, bind_assoc, read_bind, Head.forward,
        List.drop_succ_cons, List.drop_zero, pure_bind, hclose]
      match rest with
      | [] => exact ⟨rfl, rfl, rfl⟩
      | d :: more =>
        by_cases hd : d = Byte.singleQuote
        · subst hd
          exact ⟨3, rfl, rfl⟩
        · simp only [character?, List.head?_cons, Option.some.injEq, hd, if_true, if_false]
          exact ⟨trivial, trivial, trivial⟩
    · simp only [Head.read, hb, if_false, Head.forward, List.drop_succ_cons, List.drop_zero,
        pure_bind, hclose, Option.some.injEq]
      by_cases hc : c = Byte.singleQuote
      · simp only [hc, if_true, character?, hb, if_false]
        exact ⟨2, rfl, rfl⟩
      · simp only [hc, if_false, character?, hb]
        exact ⟨trivial, trivial, trivial⟩

end Quotation

end BasicLexer
