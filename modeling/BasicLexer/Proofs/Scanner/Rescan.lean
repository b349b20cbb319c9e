import BasicLexer.Proofs.Input.LogicalLines
import BasicLexer.Proofs.Reading.ReadBack
import BasicLexer.Proofs.Scanner.CommentedLines

/-!
# Scanner — scanning what was written

The tokens of a line, written down with single spaces between them, are
scanned as the same tokens again (`Scan.lineTokens_ofTokens`), however the
line was written, with comments in it or without. The tokens of a line are
legible, and of two in a row no keyword makes a compound with the word
after it (`Scan.lineTokens_legible`); that is all the second scan needs.
-/

namespace BasicLexer

open Grammar

namespace Token

/-- Tokens that can stand in a row: a keyword is apart from the token
after it. -/
def Follows (t u : Token) : Prop := ∀ k, t.kind = .keyword k → k.Apart u

/-- Nothing that is written holds a newline. -/
theorem Legible.newline_not_mem {options : Options} {t : Token} (hlegible : t.Legible options) :
    Byte.newline ∉ t.written := by
  have hword (bytes : Bytes) (hall : ∀ b ∈ bytes, b.isWord = true) : Byte.newline ∉ bytes :=
    fun hmem => absurd (hall _ hmem) (by decide)
  cases hlegible with
  | identifier hdigit hfits =>
    show Byte.newline ∉ Bytes.ofText _
    rw [Bytes.ofText_text]
    exact hword _ hfits.all
  | keyword hdigit hfits =>
    show Byte.newline ∉ Bytes.ofText _
    rw [Bytes.ofText_text]
    exact hword _ hfits.all
  | compound hdigit hfits hfirst hfits' =>
    show Byte.newline ∉ Bytes.ofText _
    rw [Bytes.ofText_spaced]
    refine fun hmem => (List.mem_append.mp hmem).elim (hword _ hfits.all) fun hmem => ?_
    exact (List.mem_cons.mp hmem).elim (by decide) (hword _ hfits'.all)
  | @operator o offset =>
    rw [written_operator]
    cases o <;> decide
  | number =>
    exact hword _ fun b hb => Byte.isWord_of_isDigit (Bytes.isDigit_of_mem_decimal hb)
  | string hroom => exact Quotation.newline_not_mem_quoted _
  | character hblank =>
    intro hmem
    rw [← List.mem_singleton.mp hmem] at hblank
    cases hblank

end Token

namespace Scan

variable {s s' : Scanner} {t : Token}

/-! ## The first scan -/

theorem read_of_getToken (hsaved : s.saved = none) (hrun : getToken s = .ok t s') :
    ∃ h, Lexeme.read s.options s.head = .ok t h ∧ s' = { s with head := h } := by
  rcases getToken_eq_ok hrun with ⟨hsome, -⟩ | ⟨-, hread⟩
  · rw [hsaved] at hsome
    cases hsome
  · exact hread

/-- **The tokens of a line are legible** and can stand in a row, but for
that of its end, and the first can stand after a keyword that makes no
compound with what the head is before. -/
theorem lineTokens_legible (hsaved : s.saved = none) (hnone : (lineTokens s).1.2 = none) :
    ∃ tokens column, (lineTokens s).1.1 = tokens ++ [endOfLine column] ∧
      (∀ t ∈ tokens, t.Legible s.options) ∧ tokens.IsChain Token.Follows ∧
      ∀ k, Word.joined? k s.head = none → ∀ t ∈ tokens.head?, k.Apart t := by
  fun_induction lineTokens s with
  | case1 s failure s' hrun => cases hnone
  | case2 s token s' hrun hend =>
    obtain ⟨h, hread, -⟩ := read_of_getToken hsaved hrun
    have htoken := (Lexeme.legible_of_read hread).resolve_right fun hlegible =>
      hlegible.kind_ne hend
    refine ⟨[], token.offset, congrArg (fun t => [t]) htoken, ?_, List.isChain_nil, ?_⟩
    · intro t ht
      cases ht
    · intro k _ t ht
      cases ht
  | case3 s token s' hrun hend rest ih =>
    obtain ⟨h, hread, rfl⟩ := read_of_getToken hsaved hrun
    have hlegible := (Lexeme.legible_of_read hread).resolve_left fun h =>
      hend (congrArg Token.kind h)
    obtain ⟨tokens, column, htokens, hall, hchain, hfirst⟩ := ih hsaved hnone
    refine ⟨token :: tokens, column, congrArg (token :: ·) htokens,
      List.forall_mem_cons.mpr ⟨hlegible, hall⟩, ?_, ?_⟩
    · refine List.isChain_cons.mpr ⟨fun u hu k hk => ?_, hchain⟩
      exact hfirst k (Lexeme.joined?_of_read hread hk) u hu
    · intro k hk u hu
      obtain rfl := Option.some.inj hu
      exact Lexeme.apart_of_read hread hend hk

/-! ## The second scan -/

theorem ofTokens_nil : Bytes.ofTokens [] = [Byte.newline] := by
  rw [Bytes.ofTokens, List.map_nil, List.intercalate_nil, List.nil_append]

theorem ofTokens_singleton (t : Token) : Bytes.ofTokens [t] = t.written ++ [Byte.newline] := by
  rw [Bytes.ofTokens, List.map_singleton, List.intercalate_singleton]

theorem ofTokens_cons_cons (t u : Token) (tokens : List Token) :
    Bytes.ofTokens (t :: u :: tokens) = t.written ++ 32 :: Bytes.ofTokens (u :: tokens) := by
  rw [Bytes.ofTokens, List.map_cons, List.map_cons, List.intercalate_cons_cons, Bytes.ofTokens,
    List.map_cons, List.append_assoc, List.append_assoc, List.singleton_append]

/-- Tokens that are written down are a line. -/
theorem isLine_ofTokens {options : Options} {tokens : List Token}
    (hlegible : ∀ t ∈ tokens, t.Legible options) : (Bytes.ofTokens tokens).IsLine := by
  induction tokens with
  | nil => exact ⟨[], List.not_mem_nil, ofTokens_nil⟩
  | cons t tokens ih =>
    obtain ⟨ht, htokens⟩ := List.forall_mem_cons.mp hlegible
    have hnewline := ht.newline_not_mem
    cases tokens with
    | nil => exact ⟨t.written, hnewline, ofTokens_singleton t⟩
    | cons u tokens =>
      obtain ⟨body, hbody, hrest⟩ := ih htokens
      refine ⟨t.written ++ 32 :: body, fun hmem => ?_, ?_⟩
      · rcases List.mem_append.mp hmem with hmem | hmem
        · exact hnewline hmem
        · exact hbody (List.mem_of_ne_of_mem (by decide) hmem)
      · rw [ofTokens_cons_cons, hrest, List.append_assoc, List.cons_append]

/-- Behind the first of tokens that are written down there is a
separator. -/
theorem exists_ofTokens_eq (t : Token) (tokens : List Token) :
    ∃ sep more, Byte.Separates sep ∧ Bytes.ofTokens (t :: tokens) = t.written ++ sep :: more := by
  cases tokens with
  | nil => exact ⟨_, _, .inr rfl, ofTokens_singleton t⟩
  | cons next tokens => exact ⟨_, _, .inl rfl, ofTokens_cons_cons t next tokens⟩

/-- **The first of tokens that were written down is read**, and then the head
stands before those that are left. -/
theorem read_of_stands {options : Options} {h : Head} {tokens : List Token} {column : Nat}
    (hwrap : options.literalOverflow = .wrap) (hten : 10 ≤ options.maxToken)
    (hlegible : ∀ u ∈ t :: tokens, u.Legible options)
    (hfollows : ∀ u ∈ tokens.head?, t.Follows u)
    (hstands : h.Stands column (Bytes.ofTokens (t :: tokens))) :
    ∃ u h' column', Lexeme.read options h = .ok u h' ∧ t.Same u ∧
      h'.Stands column' (Bytes.ofTokens tokens) := by
  obtain ⟨ht, htokens⟩ := List.forall_mem_cons.mp hlegible
  cases tokens with
  | nil =>
    rw [ofTokens_singleton] at hstands
    obtain ⟨u, h', hread, hsame, hstands'⟩ :=
      Lexeme.read_written ht hwrap (.inr rfl) hstands fun k _ => k.alone_nil _ _
    exact ⟨u, h', _, hread, hsame, hstands'⟩
  | cons next tokens =>
    rw [ofTokens_cons_cons] at hstands
    obtain ⟨hnext, -⟩ := List.forall_mem_cons.mp htokens
    obtain ⟨sep, more, hsep, hmore⟩ := exists_ofTokens_eq next tokens
    have halone : ∀ k, t.kind = .keyword k → k.Alone options (Shown.bytes
        (Bytes.sights (column + t.written.length + 1) (Bytes.ofTokens (next :: tokens)))) := by
      intro k hk
      rw [hmore]
      exact (hfollows next rfl k hk).alone hnext hten hsep _ _
    obtain ⟨u, h', hread, hsame, hstands'⟩ :=
      Lexeme.read_written ht hwrap (.inl rfl) hstands halone
    exact ⟨u, h', _, hread, hsame, hstands'.blank (by decide)⟩

/-- **Tokens that were written down are scanned again**, from where the
first of them stands. -/
theorem lineTokens_of_stands {tokens : List Token} (hsaved : s.saved = none)
    (hwrap : s.options.literalOverflow = .wrap) (hten : 10 ≤ s.options.maxToken)
    (hlegible : ∀ t ∈ tokens, t.Legible s.options) (hchain : tokens.IsChain Token.Follows)
    {column : Nat} (hstands : s.head.Stands column (Bytes.ofTokens tokens)) :
    ∃ again last s', lineTokens s = ((again ++ [endOfLine last], none), s') ∧
      tokens.Forall₂ Token.Same again := by
  induction tokens generalizing s column with
  | nil =>
    rw [ofTokens_nil] at hstands
    have hend := hstands.blank (by decide)
    have hshown : s.head.sights.dropWhile (fun sight => sight.1.isBlank) = [] := by
      rw [hend.sights, Bytes.sights, Head.sights_of_none (Head.next_of_ahead_nil rfl),
        List.dropWhile_nil]
    obtain ⟨h, hrun, -⟩ :=
      getToken_of_ends hsaved (Lexeme.ends_read_of_end s.options hstands.placed hshown)
    exact ⟨[], _, _, lineTokens_of_end hrun rfl, .nil⟩
  | cons t tokens ih =>
    obtain ⟨ht, htokens⟩ := List.forall_mem_cons.mp hlegible
    obtain ⟨hfollows, hchain'⟩ := List.isChain_cons.mp hchain
    obtain ⟨u, h, column', hread, hsame, hstands'⟩ :=
      read_of_stands hwrap hten hlegible hfollows hstands
    have hkind : u.kind ≠ .endOfLine := hsame.kind ▸ ht.kind_ne
    obtain ⟨again, last, s', hrest, hall⟩ :=
      ih (s := { s with head := h }) hsaved hwrap hten htokens hchain' hstands'
    refine ⟨u :: again, last, s', ?_, .cons hsame hall⟩
    rw [lineTokens_of_more (getToken_of_read hsaved hread) hkind, hrest]
    rfl

/-- A scanner at the start of a line stands before it. -/
theorem stands_onLine (s : Scanner) (line : Bytes) : (s.onLine line false).head.Stands 0 line where
  placed := rfl
  line := rfl
  sights := rfl

/-- **Scanning what was written gives what was scanned.** The tokens of any
line that is scanned without a failure, written down on one line, are
scanned without a failure too, as tokens of the same kinds and values, and
of the same texts but for numbers. Numbers wrap, and ten bytes have room in
a word, since that is how long a number can become. -/
theorem lineTokens_ofTokens {s : Scanner} {line : Bytes} {inComment : Bool} {tokens : List Token}
    (hwrap : s.options.literalOverflow = .wrap) (hten : 10 ≤ s.options.maxToken)
    (hline : (lineTokens (s.onLine line inComment)).1 = (tokens, none)) :
    (Bytes.ofTokens tokens.dropLast).IsLine ∧
      ∃ again, (lineTokens (s.onLine (Bytes.ofTokens tokens.dropLast) false)).1 = (again, none) ∧
        tokens.Forall₂ Token.Same again := by
  obtain ⟨before, column, htokens, hlegible, hchain, -⟩ :=
    lineTokens_legible (s := s.onLine line inComment) rfl (congrArg Prod.snd hline)
  obtain rfl : tokens = before ++ [endOfLine column] :=
    (congrArg Prod.fst hline).symm.trans htokens
  rw [List.dropLast_concat]
  obtain ⟨again, last, s', hagain, hall⟩ := lineTokens_of_stands (s := s.onLine _ false) rfl hwrap
    hten hlegible hchain (stands_onLine s (Bytes.ofTokens before))
  exact ⟨isLine_ofTokens hlegible, again ++ [endOfLine last], congrArg Prod.fst hagain,
    List.rel_append hall (.cons ⟨rfl, rfl, fun _ => rfl⟩ .nil)⟩

/-- A line on which tokens stand close together, with comments between
them, an escape in a string and a number that wraps:
`END 0xFFFFFFFF"a\"/*"Else/**/ if<='A'/ /_x//`. -/
def crowdedLine : Bytes :=
  [69, 78, 68, 32, 48, 120, 70, 70, 70, 70, 70, 70, 70, 70, 34, 97, 92, 34, 47, 42, 34, 69, 108,
    115, 101, 47, 42, 42, 47, 32, 105, 102, 60, 61, 39, 65, 39, 47, 32, 47, 95, 120, 47, 47, 10]

/-- Its tokens. -/
def crowdedTokens : List Token :=
  [{ kind := .keyword .END, text := "END", offset := 0 },
   { kind := .number, text := "FFFFFFFF", value := -1, offset := 4 },
   { kind := .string, text := "a\"/*", offset := 14 },
   { kind := .compound .elseIf, text := "Else if", offset := 21 },
   { kind := .operator .lessEqual, offset := 32 },
   { kind := .number, text := "A", value := 65, offset := 34 },
   { kind := .character Byte.slash, offset := 37 },
   { kind := .character Byte.slash, offset := 39 },
   { kind := .identifier, text := "_x", offset := 40 },
   endOfLine 45]

/-- The same tokens written down with single spaces:
`END 4294967295 "a\"/*" Else if <= 65 / / _x`. -/
def spacedLine : Bytes :=
  [69, 78, 68, 32, 52, 50, 57, 52, 57, 54, 55, 50, 57, 53, 32, 34, 97, 92, 34, 47, 42, 34, 32, 69,
    108, 115, 101, 32, 105, 102, 32, 60, 61, 32, 54, 53, 32, 47, 32, 47, 32, 95, 120, 10]

/-- They are scanned again where a word has room for ten bytes and no
more. -/
theorem lineTokens_spacedLine :
    ∃ again, (lineTokens ((Scanner.start { maxToken := 10 } (.ofTexts []) (.ofBytes [])).onLine
      spacedLine false)).1 = (again, none) ∧ crowdedTokens.Forall₂ Token.Same again := by
  have hwritten : Bytes.ofTokens crowdedTokens.dropLast = spacedLine := by cbv
  have hline : (lineTokens ((Scanner.start { maxToken := 10 } (.ofTexts []) (.ofBytes [])).onLine
      crowdedLine false)).1 = (crowdedTokens, none) := by decide +kernel
  have hagain := lineTokens_ofTokens (by rfl) (by decide) hline
  rw [hwritten] at hagain
  exact hagain.2

end Scan

end BasicLexer
