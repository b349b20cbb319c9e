import BasicLexer.Proofs.Reading.AfterWord
import BasicLexer.Proofs.Reading.Capitals
import BasicLexer.Proofs.Reading.Written
import BasicLexer.Proofs.Scanner.LineByLine
import BasicLexer.Proofs.Scanner.Outcome

/-!
# Scanner — how long a token is

Options limit how long the text of a word or a string may be
(`Token.KeepsTo`). Every token that a scan gives keeps to the limit
(`Scan.keepsTo_scanAll`), but the first byte of a word is never held against
it: where the limit is zero, an identifier of one byte is let through. No
keyword is that short.
-/

namespace BasicLexer

/-! ## The bytes of words -/

namespace Byte

/-- A word byte is one byte of text too. -/
theorem utf8Size_toChar : ∀ b : Byte, b.isWord = true → b.toChar.utf8Size = 1 :=
  forall_of_lt (by decide +kernel)

end Byte

theorem Bytes.utf8ByteSize_text {word : Bytes} (hword : ∀ b ∈ word, b.isWord = true) :
    word.text.utf8ByteSize = word.length := by
  rw [text, String.utf8ByteSize_ofList]
  induction word with
  | nil => rfl
  | cons b rest ih =>
    obtain ⟨hb, hrest⟩ := List.forall_mem_cons.mp hword
    rw [List.map_cons, String.utf8Len_cons, ih hrest, Byte.utf8Size_toChar b hb, List.length_cons]

/-- There is no keyword of one byte. -/
theorem Word.two_le_length_of_keyword? {word : Bytes} {k : Keyword}
    (hword : keyword? word = some k) : 2 ≤ word.length := by
  rw [keyword?, Keyword.ofWord?] at hword
  have hname := List.find?_some hword
  have hlength := congrArg List.length (of_decide_eq_true hname)
  rw [List.length_map, Bytes.toList_text, List.length_map] at hlength
  rw [← hlength]
  cases k <;> decide

namespace Word.Fits

variable {options : Options} {word : Bytes}

/-- A word that fits has no more bytes than are admitted, or one. -/
theorem utf8ByteSize_le (hfits : Fits options word) :
    word.text.utf8ByteSize ≤ max options.maxToken 1 := by
  rw [Bytes.utf8ByteSize_text hfits.all]
  exact hfits.within

/-- And a keyword no more than are admitted. -/
theorem utf8ByteSize_le_of_keyword? {k : Keyword} (hfits : Fits options word)
    (hword : keyword? word = some k) : word.text.utf8ByteSize ≤ options.maxToken := by
  have hle := hfits.utf8ByteSize_le
  have htwo := two_le_length_of_keyword? hword
  rw [Bytes.utf8ByteSize_text hfits.all] at hle ⊢
  omega

end Word.Fits

/-! ## Tokens -/

namespace Token

/-- A token that keeps to a limit: an identifier, a keyword and each of the
two words of a compound have at most so many bytes, and a string has at most
so many characters. -/
structure KeepsTo (limit : Nat) (t : Token) : Prop where
  identifier : t.kind = .identifier → t.text.utf8ByteSize ≤ limit
  keyword : ∀ k, t.kind = .keyword k → t.text.utf8ByteSize ≤ limit
  compound : ∀ c, t.kind = .compound c → ∃ first second,
    t.text = first ++ " " ++ second ∧
      Keyword.ofWord? first = some c.first ∧ Keyword.ofWord? second = some c.second ∧
      first.utf8ByteSize ≤ limit ∧ second.utf8ByteSize ≤ limit
  string : t.kind = .string → t.text.length ≤ limit

/-- Whether a token keeps to a limit, told exactly: it does, but for an
identifier where the limit is zero; and there it has one byte. -/
structure Limited (limit : Nat) (t : Token) : Prop where
  keepsTo_iff : t.KeepsTo limit ↔ limit ≠ 0 ∨ t.kind ≠ .identifier
  identifier : t.kind = .identifier → t.text.utf8ByteSize ≤ max limit 1

/-- Kinds with no text of their own are limited by nothing. -/
theorem limited_of_kind {limit : Nat} {t : Token} (hidentifier : t.kind ≠ .identifier)
    (hkeyword : ∀ k, t.kind ≠ .keyword k) (hcompound : ∀ c, t.kind ≠ .compound c)
    (hstring : t.kind ≠ .string) : t.Limited limit where
  keepsTo_iff := iff_of_true
    { identifier := fun h => absurd h hidentifier
      keyword := fun k h => absurd h (hkeyword k)
      compound := fun c h => absurd h (hcompound c)
      string := fun h => absurd h hstring }
    (.inr hidentifier)
  identifier := fun h => absurd h hidentifier

/-- **A legible token is limited.** -/
theorem Legible.limited {options : Options} {t : Token} (hlegible : t.Legible options) :
    t.Limited options.maxToken := by
  cases hlegible with
  | @identifier b rest offset hdigit hfits hword =>
    have hle := hfits.utf8ByteSize_le
    refine ⟨⟨fun hkeeps => ?_, fun hlimit => ?_⟩, fun _ => hle⟩
    · refine .inl fun hzero => ?_
      have hbytes := hkeeps.identifier rfl
      rw [Bytes.utf8ByteSize_text hfits.all, hzero] at hbytes
      cases hbytes
    · have hpos := hlimit.resolve_right fun hkind => hkind rfl
      refine ⟨fun _ => by dsimp only; omega, ?_, ?_, ?_⟩ <;> rintro ⟨⟩ <;> nofun
  | keyword hdigit hfits hword =>
    have hle := hfits.utf8ByteSize_le_of_keyword? hword
    exact ⟨iff_of_true ⟨nofun, fun _ _ => hle, nofun, nofun⟩ (.inr nofun), nofun⟩
  | compound hdigit hfits hfirst hfits' hsecond =>
    refine ⟨iff_of_true ⟨nofun, nofun, fun c hc => ?_, nofun⟩ (.inr nofun), nofun⟩
    cases hc
    exact ⟨_, _, rfl, hfirst, hsecond, hfits.utf8ByteSize_le_of_keyword? hfirst,
      hfits'.utf8ByteSize_le_of_keyword? hsecond⟩
  | string hroom =>
    refine ⟨iff_of_true ⟨nofun, nofun, nofun, fun _ => ?_⟩ (.inr nofun), nofun⟩
    rwa [Bytes.length_text]
  | operator | number | character => exact limited_of_kind nofun nofun nofun nofun

end Token

/-! ## Scans -/

namespace Lexeme

/-- What holds of every token off a line holds of all tokens of a line. -/
theorem forall_mem_readTokens {options : Options} {p : Token → Prop}
    (hread : (read options).Gives p) : Reader.Gives (∀ t ∈ ·, p t) (readTokens options) := by
  intro h tokens h' htokens
  fun_induction readTokens options h generalizing tokens h' with
  | case1 | case4 => cases htokens
  | case2 h t h₁ hfirst hend =>
    cases htokens
    exact List.forall_mem_singleton.mpr (hread _ _ _ hfirst)
  | case3 h t h₁ hfirst hend rest h₂ hrest ih =>
    cases htokens
    exact List.forall_mem_cons.mpr ⟨hread _ _ _ hfirst, ih _ _ hrest⟩

theorem limited_read (options : Options) :
    (read options).Gives (Token.Limited options.maxToken) := by
  intro h t h' hread
  rcases legible_of_read hread with hend | hlegible
  · rw [hend]
    exact Token.limited_of_kind nofun nofun nofun nofun
  · exact hlegible.limited

end Lexeme

namespace Scan

/-- What holds of every token off a line, and of that of the end of the file,
holds of all tokens of a scan. -/
theorem forall_mem_scanAll {p : Token → Prop} {s s' : Scanner} {tokens : List Token}
    (hread : (Lexeme.read s.options).Gives p) (hend : p Listing.endToken)
    (hscan : scanAll s = .ok tokens s') : ∀ t ∈ tokens, p t := by
  -- the induction is on the bytes of the open files: every line takes of them
  induction hleft : s.stack.left using Nat.strongRecOn generalizing s tokens with
  | ind left ih =>
    subst hleft
    rw [scanAll_eq] at hscan
    obtain ⟨found, s₁, hline, hscan⟩ := bind_eq_ok hscan
    cases found with
    | false =>
      cases hscan
      exact List.forall_mem_singleton.mpr hend
    | true =>
      obtain ⟨these, s₂, hthese, hscan⟩ := bind_eq_ok hscan
      obtain ⟨more, s₃, hmore, hscan⟩ := bind_eq_ok hscan
      cases hscan
      have hless := left_getLine hline
      obtain ⟨b, line, stack, -, rfl⟩ := fetch_of_getLine hline
      obtain ⟨h, htokens, rfl⟩ := readTokens_eq_ok hthese
      refine List.forall_mem_append.mpr ⟨?_, ih _ hless ?_ hmore rfl⟩
      · exact Lexeme.forall_mem_readTokens hread _ _ _ htokens
      · exact hread

/-- **How long tokens are.** Whatever is scanned, under whatever options, of
a token that the scan gives it is told exactly whether it keeps to the limit:
words and compounds byte by byte, strings character by character. All tokens
do if the limit is not zero. If it is zero all do but identifiers, and those
have one byte. -/
theorem keepsTo_scanAll {s s' : Scanner} {tokens : List Token}
    (hscan : scanAll s = .ok tokens s') (t : Token) (ht : t ∈ tokens) :
    (t.KeepsTo s.options.maxToken ↔ s.options.maxToken ≠ 0 ∨ t.kind ≠ .identifier) ∧
      (t.kind = .identifier → t.text.utf8ByteSize ≤ max s.options.maxToken 1) := by
  have hlast : Listing.endToken.Limited s.options.maxToken :=
    Token.limited_of_kind nofun nofun nofun nofun
  have hlimited := forall_mem_scanAll (Lexeme.limited_read s.options) hlast hscan t ht
  exact ⟨hlimited.keepsTo_iff, hlimited.identifier⟩

/-- The program `END /**/def A_123 "\n////"`, at a limit of five. -/
def fullTokens : Bytes :=
  [69, 78, 68, 32, 47, 42, 42, 47, 100, 101, 102, 32, 65, 95, 49, 50, 51, 32, 34, 92, 110, 47, 47,
    47, 47, 34]

/-- Its compound, its identifier and its string keep to the limit, which two
of them reach. -/
theorem keepsTo_scanAll_fullTokens :
    ∃ tokens s, scanAll (.start { maxToken := 5 } (.ofTexts []) (.ofBytes fullTokens)) =
        .ok tokens s ∧
      tokens.map Token.text = ["END def", "A_123", "\n////", "", ""] ∧
      ∀ t ∈ tokens, t.KeepsTo 5 := by
  have htokens : outcome { maxToken := 5 } 0 false
      (Bytes.logicalLines (Options.maxLine {}) fullTokens) =
      .ok ([{ kind := .compound .endDef, text := "END def", offset := 0 },
        { kind := .identifier, text := "A_123", offset := 12 },
        { kind := .string, text := "\n////", offset := 18 },
        { kind := .endOfLine, offset := 27 }, Listing.endToken], false) := by
    decide +kernel
  have hends := scanAll_start { maxToken := 5 } (.ofTexts []) fullTokens
  rw [htokens] at hends
  obtain ⟨s, hrun, -⟩ := hends
  exact ⟨_, s, hrun, rfl, fun t ht => (keepsTo_scanAll hrun t ht).1.mpr (.inl (by decide))⟩

/-- **The first byte is not held against the limit.** Where no byte is
admitted, the program `A` is scanned all the same, and its identifier has
one. -/
theorem scanAll_identifier_at_zero :
    ∃ tokens s, scanAll (.start { maxToken := 0 } (.ofTexts []) (.ofBytes [65, 10])) =
        .ok tokens s ∧
      { kind := .identifier, text := "A", offset := 0 } ∈ tokens ∧
      ¬ Token.KeepsTo 0 { kind := .identifier, text := "A", offset := 0 } := by
  have htokens : outcome { maxToken := 0 } 0 false
      (Bytes.logicalLines (Options.maxLine {}) [65, 10]) =
      .ok ([{ kind := .identifier, text := "A", offset := 0 },
        { kind := .endOfLine, offset := 2 }, Listing.endToken], false) := by
    decide +kernel
  have hends := scanAll_start { maxToken := 0 } (.ofTexts []) [65, 10]
  rw [htokens] at hends
  obtain ⟨s, hrun, -⟩ := hends
  refine ⟨_, s, hrun, List.mem_cons_self, fun hkeeps => ?_⟩
  exact absurd (hkeeps.identifier rfl) (by decide)

end Scan

end BasicLexer
