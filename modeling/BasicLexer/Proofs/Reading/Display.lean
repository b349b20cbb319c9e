import BasicLexer.Proofs.Listing.Expansion
import BasicLexer.Proofs.Reading.AfterWord
import BasicLexer.Proofs.Reading.Capitals

/-!
# Reading — tokens are shown on one line

A listing shows a token on a line of its own, so no token may have a
newline in what it is shown as (`Token.OneLine`). The names of kinds have
none, nor do the digits of a value; a string is shown with its newlines
escaped. The two kinds of token that show bytes of a line as they are,
words and single characters, are read where the first byte is not blank,
and a newline is blank (`Lexeme.oneLine_read`).
-/

namespace BasicLexer

/-! ## Texts without newlines -/

theorem digitChar_mem : ∀ d : Nat, d.digitChar ∈ "0123456789abcdef*".toList
  | 0 | 1 | 2 | 3 | 4 | 5 | 6 | 7 | 8 | 9 | 10 | 11 | 12 | 13 | 14 | 15 => by decide
  | _ + 16 => by simp [Nat.digitChar]

/-- A character that is no digit is none of the digits of a number. -/
theorem notMem_toDigits {base : Nat} (hbase : 1 < base) {c : Char}
    (hc : c ∉ "0123456789abcdef*".toList) (n : Nat) : c ∉ Nat.toDigits base n := by
  have hdigit (d : Nat) : c ≠ d.digitChar := fun h => hc (h ▸ digitChar_mem d)
  induction n using Nat.strongRecOn with
  | ind n ih =>
    rw [Nat.toDigits_eq_if hbase]
    split
    · rw [List.mem_singleton]
      exact hdigit n
    · rename_i hle
      have hlt : n / base < n := Nat.div_lt_self (by omega) hbase
      rw [List.mem_append, List.mem_singleton]
      rintro (hfirst | hlast)
      · exact ih _ hlt hfirst
      · exact hdigit _ hlast

theorem newline_notMem_toString (i : Int) : '\n' ∉ (toString i).toList := by
  have hnat (n : Nat) : '\n' ∉ n.repr.toList := by
    rw [Nat.toList_repr]
    exact notMem_toDigits (by decide) (by decide) n
  rw [Int.toString_eq_repr]
  cases i with
  | ofNat n => exact hnat n
  | negSucc n =>
    rw [Int.repr, String.toList_append, List.mem_append]
    rintro (hsign | hdigits)
    · exact absurd hsign (by decide)
    · exact hnat _ hdigits

namespace Quoted

theorem newline_notMem_escape (c : Char) : '\n' ∉ escape c := by
  rw [escape]
  repeat' split
  all_goals try decide
  · -- written by code point
    simp only [codePoint, List.mem_cons, List.mem_append, List.not_mem_nil, or_false, not_or]
    exact ⟨by decide, by decide, by decide, notMem_toDigits (by decide) (by decide) _, by decide⟩
  · rename_i hother _ _ _ _
    rw [List.mem_singleton]
    exact Ne.symm hother

/-- **The quoted form of any text is one line.** -/
theorem newline_notMem_ofText (text : String) : '\n' ∉ (ofText text).toList := by
  rw [ofText, String.toList_ofList, List.mem_cons, List.mem_append, List.mem_flatMap]
  rintro (hquote | ⟨c, -, hc⟩ | hquote)
  · exact absurd hquote (by decide)
  · exact newline_notMem_escape c hc
  · exact absurd hquote (by decide)

end Quoted

namespace Kind

/-- The name of a kind is one line, but for that of the newline as a
character. -/
theorem newline_notMem_name {kind : Kind} (hkind : ∀ b, kind = character b → b.toChar ≠ '\n') :
    '\n' ∉ kind.name.toList := by
  cases kind with
  | keyword k => cases k <;> decide
  | compound c => cases c <;> decide
  | operator o => cases o <;> decide
  | identifier | number | string | endOfLine | endOfFile => decide
  | character b =>
    have hb := Ne.symm (hkind b rfl)
    rw [name, String.toList_ofList]
    simp [hb]

/-- Whether tokens of a kind are shown with bytes of their line as they
are. -/
def isVerbatim : Kind → Bool
  | identifier | character _ => true
  | _ => false

end Kind

/-! ## Tokens -/

namespace Token

/-- A token is shown on one line. -/
def OneLine (t : Token) : Prop := '\n' ∉ t.display.toList

/-- It is, where no text or byte that is shown as it is has a newline. -/
theorem oneLine_of {t : Token} (htext : t.kind = .identifier → '\n' ∉ t.text.toList)
    (hkind : ∀ b, t.kind = .character b → b.toChar ≠ '\n') : t.OneLine := by
  have hname := Kind.newline_notMem_name hkind
  have hwith {text : String} (hline : '\n' ∉ text.toList) :
      '\n' ∉ (t.kind.name ++ "(" ++ text ++ ")").toList := by
    simp only [String.toList_append, List.mem_append, not_or]
    exact ⟨⟨⟨hname, by decide⟩, hline⟩, by decide⟩
  rw [OneLine, display]
  split
  · rename_i hidentifier
    exact hwith (htext hidentifier)
  · exact hwith (newline_notMem_toString _)
  · exact hwith (Quoted.newline_notMem_ofText _)
  · exact hname

theorem oneLine_of_not_verbatim {t : Token} (hkind : t.kind.isVerbatim = false) : t.OneLine := by
  refine oneLine_of (fun hidentifier => ?_) fun b hcharacter => ?_
  · rw [hidentifier] at hkind
    cases hkind
  · rw [hcharacter] at hkind
    cases hkind

end Token

namespace Reader

/-- What a reader gives bears on what is read after it. -/
theorem Gives.bind_of {α β : Type} {P : α → Prop} {Q : β → Prop} {x : Reader α}
    {f : α → Reader β} (hx : x.Gives P) (hf : ∀ a, P a → (f a).Gives Q) : (x >>= f).Gives Q := by
  intro h b h'' hrun
  obtain ⟨a, h', hfirst, hrest⟩ := bind_eq_ok hrun
  exact hf a (hx h a h' hfirst) h' b h'' hrest

end Reader

namespace Word

open Reader

/-- A word is made of word bytes. -/
theorem isWord_read (options : Options) {b : Byte} (hb : b.isWord = true) :
    (read options b).Gives fun word => ∀ c ∈ word, c.isWord = true := by
  intro h word h' hrun
  have hfirst : ∀ c ∈ [b], c.isWord = true := List.forall_mem_singleton.mpr hb
  rw [read] at hrun
  generalize [b] = taken at hrun hfirst
  generalize options.maxToken - 1 = room at hrun
  fun_induction tailFrom taken room h with
  | case1 => cases hrun
  | case2 taken h c h₁ hstep room ih =>
    have hc : c.isWord = true := by
      rw [nextIf_apply, EStateM.Result.ok.injEq, Option.bind_eq_some_iff] at hstep
      obtain ⟨⟨d, -, hd⟩, -⟩ := hstep
      rw [continues, Option.ite_none_right_eq_some] at hd
      exact Option.some.inj hd.2 ▸ hd.1
    exact ih (List.forall_mem_cons.mpr ⟨hc, hfirst⟩) hrun
  | case3 taken room h h₁ hstep =>
    cases hrun
    exact fun c hc => hfirst c (List.mem_reverse.mp hc)
  | case4 => cases hrun

theorem oneLine_readToken (options : Options) (start : Nat) {b : Byte} (hb : b.isWord = true) :
    (readToken options start b).Gives Token.OneLine := by
  refine (isWord_read options hb).bind_of fun word hword => ?_
  cases keyword? word with
  | none =>
    refine .pure (Token.oneLine_of (fun _ => ?_) fun _ hcharacter => by cases hcharacter)
    rw [Bytes.toList_text, List.mem_map]
    rintro ⟨c, hc, hnewline⟩
    rw [Byte.toChar_eq_newline.mp hnewline] at hc
    exact absurd (hword _ hc) (by decide)
  | some k =>
    -- keywords and compounds are shown by their names
    dsimp only
    split
    · refine .bind fun found => ?_
      cases found <;> exact .pure (Token.oneLine_of_not_verbatim rfl)
    · exact .pure (Token.oneLine_of_not_verbatim rfl)

end Word

namespace Lexeme

open Reader

theorem oneLine_readFrom (options : Options) (start : Nat) {b : Byte} (hb : b.isBlank = false) :
    (readFrom options start b).Gives Token.OneLine := by
  have hcharacter : Token.OneLine { kind := .character b, offset := start } :=
    Token.oneLine_of (fun hidentifier => by cases hidentifier) fun c hc => by
      cases hc
      intro hnewline
      rw [Byte.toChar_eq_newline.mp hnewline] at hb
      exact absurd hb (by decide)
  rw [readFrom]
  split
  · exact .bind fun _ => .pure (Token.oneLine_of_not_verbatim rfl)
  split
  · exact .bind fun _ => .pure (Token.oneLine_of_not_verbatim rfl)
  split
  · refine .bind fun operator => ?_
    cases operator with
    | none => exact .pure hcharacter
    | some operator => exact .pure (Token.oneLine_of_not_verbatim rfl)
  split
  · exact .bind fun _ => .bind fun _ => .pure (Token.oneLine_of_not_verbatim rfl)
  split
  · rename_i hword
    exact Word.oneLine_readToken options start hword
  · exact .pure hcharacter

/-- **Every token of a line is shown on one line.** -/
theorem oneLine_read (options : Options) : (read options).Gives Token.OneLine := by
  intro h t h' hread
  rw [read_eq] at hread
  rcases hskip : skipBlanksFrom h with ⟨_ | b, h₁⟩ <;> rw [hskip] at hread
  · cases hread
    exact Token.oneLine_of_not_verbatim rfl
  · exact oneLine_readFrom options _ (isBlank_of_skipBlanksFrom hskip) _ _ _ hread

theorem oneLine_token {options : Options} {h h' : Head} {t : Token}
    (htoken : token options h = .ok (t, h')) : t.OneLine :=
  oneLine_read options _ _ _ (token_eq_ok.mp htoken)

theorem oneLine_tokensFrom {options : Options} {t : Token} {h : Head} {found : List Token × Head}
    (hfirst : t.OneLine) (htokens : tokensFrom options t h = .ok found) :
    ∀ u ∈ found.1, u.OneLine := by
  fun_induction tokensFrom options t h generalizing found with
  | case1 t h hend =>
    cases htokens
    exact List.forall_mem_singleton.mpr hfirst
  | case2 t h hend cause hnext => cases htokens
  | case3 t h hend next h' hnext ih =>
    cases hrest : tokensFrom options next h' with
    | error cause =>
      rw [hrest] at htokens
      cases htokens
    | ok rest =>
      rw [hrest] at htokens
      cases htokens
      exact List.forall_mem_cons.mpr ⟨hfirst, ih (oneLine_token hnext) hrest⟩

end Lexeme

namespace Listing

/-- The tokens that a line leaves in a listing are shown on one line
each. -/
theorem Statement.oneLine_ofLine {options : Options} {inComment isOpen : Bool} {line : Bytes}
    {tokens : List Token} (hline : ofLine options inComment line = .ok (.tokens tokens, isOpen)) :
    ∀ t ∈ tokens, t.OneLine := by
  rw [ofLine] at hline
  obtain ⟨⟨first, h⟩, hfirst, hline⟩ := except_bind_eq_ok hline
  have hshown := Lexeme.oneLine_token hfirst
  dsimp only at hline
  split at hline
  · obtain ⟨⟨name, h'⟩, -, hline⟩ := except_bind_eq_ok hline
    cases hline
  split at hline
  · cases hline
    exact List.forall_mem_cons.mpr ⟨hshown, List.forall_mem_singleton.mpr
      (Token.oneLine_of_not_verbatim rfl)⟩
  · obtain ⟨⟨these, h'⟩, htokens, hline⟩ := except_bind_eq_ok hline
    cases hline
    exact Lexeme.oneLine_tokensFrom hshown htokens

end Listing

end BasicLexer
