import Mathlib.Data.List.Nodup
import BasicLexer.Proofs.Reading.Display

/-!
# Reading — what a token is shown as tells it

A listing shows of a token its kind, and of some kinds their text or value.
All of that can be read back (`Token.display_eq_iff`). A kind is told by the
name in front, which ends where a parenthesis opens; single characters alone
have a quote in front. The text of a string is told by its quoted form, since
no escape begins another (`Quoted.escape_append_inj`).
-/

namespace BasicLexer

/-- What stands before the first separator is told apart from what stands
behind it. -/
theorem append_separator_inj {α : Type} {separator : α} {before before' after after' : List α}
    (hbefore : separator ∉ before) (hbefore' : separator ∉ before')
    (h : before ++ separator :: after = before' ++ separator :: after') :
    before = before' ∧ after = after' := by
  induction before generalizing before' with
  | nil =>
    cases before' with
    | nil => exact ⟨rfl, (List.cons.inj h).2⟩
    | cons x before' => exact absurd ((List.cons.inj h).1 ▸ List.mem_cons_self) hbefore'
  | cons x before ih =>
    cases before' with
    | nil => exact absurd ((List.cons.inj h).1 ▸ List.mem_cons_self) hbefore
    | cons y before' =>
      obtain ⟨rfl, hrest⟩ := List.cons.inj h
      obtain ⟨rfl, hafter⟩ := ih (fun hx => hbefore (List.mem_cons_of_mem _ hx))
        (fun hx => hbefore' (List.mem_cons_of_mem _ hx)) hrest
      exact ⟨rfl, hafter⟩

namespace Quoted

/-! ## The quoted form -/

theorem digitChar_inj {d e : Nat} (hd : d < 16) (he : e < 16) (h : d.digitChar = e.digitChar) :
    d = e := by
  have hall : ∀ d : Fin 16, ∀ e : Fin 16, d.val.digitChar = e.val.digitChar → d = e := by decide
  exact congrArg Fin.val (hall ⟨d, hd⟩ ⟨e, he⟩ h)

/-- A number is told by its digits. -/
theorem eq_of_toDigits {n m : Nat} (h : Nat.toDigits 16 n = Nat.toDigits 16 m) : n = m := by
  induction n using Nat.strongRecOn generalizing m with
  | ind n ih =>
    have hlong (k : Nat) (c d : Char) : [c] ≠ Nat.toDigits 16 (k / 16) ++ [d] := by
      intro hsame
      have hlength := congrArg List.length hsame
      have hpos := List.length_pos_of_ne_nil (Nat.toDigits_ne_nil (n := k / 16) (b := 16))
      rw [List.length_append, List.length_singleton, List.length_singleton] at hlength
      omega
    rw [Nat.toDigits_eq_if (n := n) (by decide), Nat.toDigits_eq_if (n := m) (by decide)] at h
    split at h <;> split at h
    · next hn hm => exact digitChar_inj hn hm (List.singleton_inj.mp h)
    · exact absurd h (hlong _ _ _)
    · exact absurd h.symm (hlong _ _ _)
    · next hn hm =>
      obtain ⟨hmore, hlast⟩ := List.append_inj' h rfl
      have hquotient := ih (n / 16) (Nat.div_lt_self (by omega) (by decide)) hmore
      have hremainder := digitChar_inj (Nat.mod_lt n (by decide)) (Nat.mod_lt m (by decide))
        (List.singleton_inj.mp hlast)
      omega

/-- The characters with a short escape, and what the backslash is followed
by. -/
def short : List (Char × Char) :=
  [('"', '"'), ('\\', '\\'), ('\n', 'n'), ('\r', 'r'), ('\t', 't'), ('\x00', '0')]

/-- How a character is written: by a short escape, as it is, or by its code
point. -/
theorem escape_cases (c : Char) :
    (∃ e, (c, e) ∈ short ∧ escape c = ['\\', e]) ∨
    (c ≠ '\\' ∧ c ≠ '"' ∧ escape c = [c]) ∨
    escape c = '\\' :: 'u' :: '\x7b' :: (codePoint c ++ ['\x7d']) := by
  rw [escape]
  repeat' split
  iterate 6 next hc => exact .inl ⟨_, by rw [hc]; decide, rfl⟩
  · exact .inr (.inr rfl)
  · next hquote hbackslash _ _ _ _ _ => exact .inr (.inl ⟨hbackslash, hquote, rfl⟩)

/-- **No escape begins another**: a text in quotes is read back character by
character. -/
theorem escape_append_inj {c d : Char} {rest more : List Char}
    (h : escape c ++ rest = escape d ++ more) : c = d ∧ rest = more := by
  have hshort : ∀ p ∈ short, ∀ q ∈ short, p.2 = q.2 → p.1 = q.1 := by decide
  have hpoint : ∀ p ∈ short, p.2 ≠ 'u' := by decide
  rcases escape_cases c with ⟨e, hc, hcode⟩ | ⟨hc, -, hplain⟩ | hhidden <;>
    rcases escape_cases d with ⟨e', hd, hcode'⟩ | ⟨hd, -, hplain'⟩ | hhidden'
  · rw [hcode, hcode'] at h
    obtain ⟨he, hrest⟩ := List.cons.inj (List.cons.inj h).2
    exact ⟨hshort _ hc _ hd he, hrest⟩
  · rw [hcode, hplain'] at h
    exact absurd (List.cons.inj h).1.symm hd
  · rw [hcode, hhidden'] at h
    exact absurd (List.cons.inj (List.cons.inj h).2).1 (hpoint _ hc)
  · rw [hplain, hcode'] at h
    exact absurd (List.cons.inj h).1 hc
  · rw [hplain, hplain'] at h
    exact List.cons.inj h
  · rw [hplain, hhidden'] at h
    exact absurd (List.cons.inj h).1 hc
  · rw [hhidden, hcode'] at h
    exact absurd (List.cons.inj (List.cons.inj h).2).1.symm (hpoint _ hd)
  · rw [hhidden, hplain'] at h
    exact absurd (List.cons.inj h).1.symm hd
  · have hbrace (c : Char) : '\x7d' ∉ codePoint c := notMem_toDigits (by decide) (by decide) _
    rw [hhidden, hhidden'] at h
    simp only [List.cons_append, List.append_assoc, List.nil_append, List.cons.injEq, true_and] at h
    obtain ⟨hdigits, hrest⟩ := append_separator_inj (hbrace c) (hbrace d) h
    exact ⟨Char.toNat_inj.mp (eq_of_toDigits hdigits), hrest⟩

/-- The closing quote is not the beginning of an escape. -/
theorem escape_append_ne (c : Char) (rest more : List Char) : escape c ++ rest ≠ '"' :: more := by
  intro h
  rcases escape_cases c with ⟨e, -, hcode⟩ | ⟨-, hquote, hplain⟩ | hhidden
  · rw [hcode] at h
    exact absurd (List.cons.inj h).1 (by decide)
  · rw [hplain] at h
    exact absurd (List.cons.inj h).1 hquote
  · rw [hhidden] at h
    exact absurd (List.cons.inj h).1 (by decide)

theorem eq_of_flatMap_escape {text text' : List Char}
    (h : text.flatMap escape ++ ['"'] = text'.flatMap escape ++ ['"']) : text = text' := by
  induction text generalizing text' with
  | nil =>
    cases text' with
    | nil => rfl
    | cons d text' =>
      rw [List.flatMap_cons, List.append_assoc] at h
      exact absurd h.symm (escape_append_ne _ _ _)
  | cons c text ih =>
    cases text' with
    | nil =>
      rw [List.flatMap_cons, List.append_assoc] at h
      exact absurd h (escape_append_ne _ _ _)
    | cons d text' =>
      rw [List.flatMap_cons, List.flatMap_cons, List.append_assoc, List.append_assoc] at h
      obtain ⟨rfl, hrest⟩ := escape_append_inj h
      rw [ih hrest]

/-- **A text is told by its quoted form.** -/
theorem ofText_inj {text text' : String} : ofText text = ofText text' ↔ text = text' := by
  refine ⟨fun h => ?_, fun h => h ▸ rfl⟩
  exact String.toList_inj.mp (eq_of_flatMap_escape (List.cons.inj (String.ofList_inj.mp h)).2)

end Quoted

namespace Kind

/-! ## The names of kinds -/

/-- A kind is a single character or has a name of its own. -/
theorem mem_named_or (kind : Kind) : kind ∈ named ∨ ∃ b, kind = character b := by
  cases kind with
  | keyword k => cases k <;> exact .inl (by decide)
  | compound c => cases c <;> exact .inl (by decide)
  | operator o => cases o <;> exact .inl (by decide)
  | identifier | number | string | endOfLine | endOfFile => exact .inl (by decide)
  | character b => exact .inr ⟨b, rfl⟩

/-- The names of kinds are told apart by a parenthesis behind them, and from
characters by their beginning. -/
theorem traits_named :
    (named.map fun kind => kind.name.toList).Nodup ∧
      ∀ kind ∈ named, '(' ∉ kind.name.toList ∧
        kind.name.toList.head?.any (· != '\'') = true := by
  decide +kernel

theorem toList_name_character (b : Byte) : (character b).name.toList = ['\'', b.toChar, '\''] :=
  String.toList_ofList

/-- The name is what stands before the first parenthesis. -/
theorem takeWhile_name_append {kind : Kind} (hkind : kind ∈ named) {rest : List Char}
    (hrest : rest.takeWhile (· != '(') = []) :
    (kind.name.toList ++ rest).takeWhile (· != '(') = kind.name.toList := by
  rw [List.takeWhile_append_of_pos, hrest, List.append_nil]
  intro c hc
  exact bne_iff_ne.mpr fun hparen => (traits_named.2 kind hkind).1 (hparen ▸ hc)

/-- A name does not begin as a single character does. -/
theorem name_append_ne_character {kind : Kind} (hkind : kind ∈ named) (b : Byte)
    (rest rest' : List Char) : kind.name.toList ++ rest ≠ (character b).name.toList ++ rest' := by
  have hhead := (traits_named.2 kind hkind).2
  intro hsame
  rw [toList_name_character] at hsame
  cases hname : kind.name.toList with
  | nil =>
    rw [hname] at hhead
    exact absurd hhead nofun
  | cons c name =>
    rw [hname] at hhead hsame
    exact bne_iff_ne.mp hhead (List.cons.inj hsame).1

/-- **A kind is told by its name**, whatever follows the name from a
parenthesis on. -/
theorem eq_of_name_append {kind kind' : Kind} {rest rest' : List Char}
    (hrest : rest.takeWhile (· != '(') = []) (hrest' : rest'.takeWhile (· != '(') = [])
    (h : kind.name.toList ++ rest = kind'.name.toList ++ rest') : kind = kind' := by
  rcases mem_named_or kind with hkind | ⟨b, rfl⟩ <;>
    rcases mem_named_or kind' with hkind' | ⟨b', rfl⟩
  · have hsame := congrArg (List.takeWhile (· != '(')) h
    rw [takeWhile_name_append hkind hrest, takeWhile_name_append hkind' hrest'] at hsame
    exact List.inj_on_of_nodup_map traits_named.1 hkind hkind' hsame
  · exact absurd h (name_append_ne_character hkind b' _ _)
  · exact absurd h.symm (name_append_ne_character hkind' b _ _)
  · rw [toList_name_character, toList_name_character] at h
    exact congrArg character (Byte.toChar_inj.mp (List.cons.inj (List.cons.inj h).2).1)

end Kind

namespace Token

/-! ## Tokens -/

/-- Two tokens are the same but for what a listing does not show: of one
kind, of one text if they are identifiers or strings, and of one value if they
are numbers. -/
structure Akin (t u : Token) : Prop where
  kind : t.kind = u.kind
  text : t.kind = .identifier ∨ t.kind = .string → t.text = u.text
  value : t.kind = .number → t.value = u.value

/-- A token is shown by the name of its kind and, if there is more, what is in
parentheses. -/
theorem toList_display (t : Token) :
    ∃ rest, rest.takeWhile (· != '(') = [] ∧ t.display.toList = t.kind.name.toList ++ rest := by
  have hwith (text : String) :
      ∃ rest, rest.takeWhile (· != '(') = [] ∧
        (t.kind.name ++ "(" ++ text ++ ")").toList = t.kind.name.toList ++ rest :=
    ⟨'(' :: (text.toList ++ [')']), rfl, by simp⟩
  rw [display]
  split
  · exact hwith _
  · exact hwith _
  · exact hwith _
  · exact ⟨[], rfl, (List.append_nil _).symm⟩

/-- What is in parentheses is told. -/
theorem eq_of_parentheses {name text text' : String}
    (h : name ++ "(" ++ text ++ ")" = name ++ "(" ++ text' ++ ")") : text = text' := by
  have hlist := congrArg String.toList h
  simp only [String.toList_append, List.append_cancel_right_eq, List.append_cancel_left_eq] at hlist
  exact String.toList_inj.mp hlist

/-- **What a token is shown as tells it**, its kind and, where a listing shows
them, its text and its value, and nothing else. -/
theorem display_eq_iff {t u : Token} : t.display = u.display ↔ t.Akin u := by
  constructor
  · intro h
    have hkind : t.kind = u.kind := by
      obtain ⟨rest, hrest, ht⟩ := t.toList_display
      obtain ⟨rest', hrest', hu⟩ := u.toList_display
      rw [← h] at hu
      exact Kind.eq_of_name_append hrest hrest' (ht.symm.trans hu)
    refine ⟨hkind, ?_, fun hnumber => ?_⟩
    · rintro (hidentifier | hstring)
      · rw [display, display, ← hkind, hidentifier] at h
        exact eq_of_parentheses h
      · rw [display, display, ← hkind, hstring] at h
        exact Quoted.ofText_inj.mp (eq_of_parentheses h)
    · rw [display, display, ← hkind, hnumber] at h
      have hvalue := eq_of_parentheses h
      rw [Int.toString_eq_repr, Int.toString_eq_repr, Int.repr_inj] at hvalue
      exact Int32.toInt_inj.mp hvalue
  · intro h
    rw [display, display, ← h.kind]
    split
    · next hidentifier => rw [h.text (.inl hidentifier)]
    · next hnumber => rw [h.value hnumber]
    · next hstring => rw [h.text (.inr hstring)]
    · rfl

end Token

end BasicLexer
