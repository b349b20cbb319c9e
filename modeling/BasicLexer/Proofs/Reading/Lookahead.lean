import Mathlib
import BasicLexer.Proofs.Reading.Kept
import BasicLexer.Scanner.Lines
import BasicLexer.Scanner.Tokens

/-!
# Reading — the lookahead for compounds

After a word that may open a compound, the next word is looked at. Which
bytes it looks at is `Word.following`: blanks aside, the word bytes that
come next, whether they make a word, the start of a number or nothing at
all. If they make no compound the scanner stands where it would without
having looked, as long as there are not more of them than a token may
have. A longer run is an error there and then, at the first word: the
limit is held against bytes that were only looked at
(`Scan.getToken_of_no_compound`).
-/

namespace BasicLexer

namespace Word

open Reader

/-- The word bytes that come next after blanks. -/
def following (h : Head) : Bytes := (h.visible.dropWhile Byte.isBlank).takeWhile Byte.isWord

/-- The compound that a keyword makes with the bytes that follow it. -/
def joined? (first : Keyword) (h : Head) : Option Compound :=
  (keyword? (following h)).bind (Compound.ofWords? first)

theorem keyword?_nil : keyword? [] = none := by decide

/-- Where a word byte comes next, it and the run after it follow. -/
theorem following_of_word {h h' : Head} {b : Byte} (hskip : skipBlanksFrom h = (some b, h'))
    (hword : b.isWord = true) : following h = b :: run h' := by
  rw [following, dropWhile_of_skipBlanksFrom, hskip]
  exact List.takeWhile_cons_of_pos hword

/-- What the lookahead does: nothing follows and it finds none, or it
reads the word that begins with the byte that comes next. -/
theorem readSecond_cases (options : Options) (first : Keyword) (h : Head) :
    (following h = [] ∧ readSecond options first h = .ok none (skipBlanksFrom h).2) ∨
    ∃ b h', skipBlanksFrom h = (some b, h') ∧ b.isWord = true ∧
      readSecond options first h =
        (read options b >>= fun word => pure ((keyword? word).bind fun second =>
          (Compound.ofWords? first second).map fun compound => (compound, word))) h' := by
  have hvisible := dropWhile_of_skipBlanksFrom h
  simp only [readSecond, Bind.bind, EStateM.bind, skipBlanks]
  rcases hskip : skipBlanksFrom h with ⟨_ | b, h'⟩
  · rw [hskip] at hvisible
    exact .inl ⟨by rw [following, hvisible]; rfl, rfl⟩
  by_cases hword : b.isWord = true
  · refine .inr ⟨b, h', rfl, hword, ?_⟩
    simp only [hword, if_true]
    rfl
  · rw [hskip] at hvisible
    refine .inl ⟨?_, by simp only [hword]; rfl⟩
    rw [following, hvisible]
    exact List.takeWhile_cons_of_neg hword

/-- Where there is room for what follows, the lookahead says whether it
makes a compound. -/
theorem readSecond_of_le {options : Options} (first : Keyword) {h : Head}
    (hroom : (following h).length ≤ max options.maxToken 1) :
    ∃ h', readSecond options first h =
      .ok ((joined? first h).map fun compound => (compound, following h)) h' := by
  rcases readSecond_cases options first h with ⟨hnone, hread⟩ | ⟨b, h', hskip, hword, hread⟩
  · exact ⟨_, by rw [hread, joined?, hnone, keyword?_nil]; rfl⟩
  · have hfollowing := following_of_word hskip hword
    rw [hfollowing, List.length_cons] at hroom
    -- the byte found is admitted in any case, the run after it up to the limit
    have hrun : (run h').length ≤ options.maxToken - 1 := by omega
    obtain ⟨h'', htail⟩ := tailFrom_of_le [b] hrun
    refine ⟨h'', ?_⟩
    rw [hread, joined?, hfollowing]
    have hword : read options b h' = .ok (b :: run h') h'' := htail
    rw [bind_of_ok hword]
    cases keyword? (b :: run h') <;> rfl

/-- A run there is no room for is an error. -/
theorem readSecond_of_gt {options : Options} (first : Keyword) {h : Head}
    (hroom : max options.maxToken 1 < (following h).length) :
    ∃ h', readSecond options first h = .error (.reported .identifierTooLong) h' := by
  rcases readSecond_cases options first h with ⟨hnone, -⟩ | ⟨b, h', hskip, hword, hread⟩
  · rw [hnone] at hroom
    simp at hroom
  · rw [following_of_word hskip hword, List.length_cons] at hroom
    have hrun : options.maxToken - 1 < (run h').length := by omega
    obtain ⟨h'', htail⟩ := tailFrom_of_gt [b] hrun
    refine ⟨h'', ?_⟩
    have hword : read options b h' = .error (.reported .identifierTooLong) h'' := htail
    rw [hread, bind_of_error hword]

end Word

namespace Lexeme

/-- A word byte that is no digit begins a word. -/
theorem readFrom_of_word {b : Byte} (options : Options) (start : Nat) (hword : b.isWord = true)
    (hdigit : b.isDigit = false) : readFrom options start b = Word.readToken options start b := by
  -- the bytes that open the other tokens are no word bytes
  have hquote : ∀ c : Byte, c.isWord = false → b ≠ c := by
    rintro c hc rfl
    rw [hword] at hc
    cases hc
  rw [readFrom, if_neg (hquote _ (by decide)), if_neg (hquote _ (by decide)), if_neg, if_neg,
    if_pos hword]
  · rw [hdigit]
    exact Bool.false_ne_true
  · rintro (h | h)
    · exact hquote _ (by decide) h
    · exact hquote _ (by decide) h

end Lexeme

/-- The word at a scanner's head is a keyword that may open a compound:
its spelling, the column it begins at, and the head just after it. -/
structure OpeningWord (s : Scanner) (k : Keyword) (word : Bytes) (start : Nat) (after : Head) :
    Prop where
  unsaved : s.saved = none
  read : ∃ b h, Reader.skipBlanksFrom s.head = (some b, h) ∧ b.isWord = true ∧
    b.isDigit = false ∧ start = h.column - 1 ∧
    Word.read s.options b { h with tokenStart := start } = .ok word after
  keyword : Word.keyword? word = some k
  opens : k.opensCompound = true

namespace OpeningWord

variable {s : Scanner} {k : Keyword} {word : Bytes} {start : Nat} {after : Head}

/-- The token of an opening word that opens nothing. -/
def single (k : Keyword) (word : Bytes) (start : Nat) : Token :=
  { kind := .keyword k, text := word.text, offset := start }

/-- After the word, a token is what the lookahead makes of it. -/
theorem lexemeRead_eq (hopening : OpeningWord s k word start after) :
    Lexeme.read s.options s.head =
      (Word.readCompound s.options k >>= fun found =>
        match found with
        | some (compound, second) =>
          pure { kind := .compound compound, text := word.text ++ " " ++ second.text,
                 offset := start }
        | none => pure (single k word start)) after := by
  obtain ⟨b, h, hskip, hword, hdigit, rfl, hread⟩ := hopening.read
  simp only [Lexeme.read, Bind.bind, EStateM.bind, Reader.skipBlanks, hskip, Lexeme.noteStart,
    Option.isSome_some, if_true, Lexeme.readFrom_of_word _ _ hword hdigit, Word.readToken, hread,
    hopening.keyword, hopening.opens]
  rfl

/-- The column of the token is noted before the word is read. -/
theorem tokenStart_after (hopening : OpeningWord s k word start after) :
    after.tokenStart = start := by
  obtain ⟨b, h, -, -, -, -, hread⟩ := hopening.read
  exact (Word.preserves_read (Head.moved_tokenStart start) s.options b).of_run rfl hread

/-- Where there is room for what follows, the word is a token of its own,
and the scanner is left just after it. -/
theorem getToken_of_le (hopening : OpeningWord s k word start after)
    (hmiss : Word.joined? k after = none)
    (hroom : (Word.following after).length ≤ max s.options.maxToken 1) :
    Scan.getToken s = .ok (single k word start) { s with head := after } := by
  obtain ⟨h', hsecond⟩ := Word.readSecond_of_le k hroom
  rw [hmiss, Option.map_none] at hsecond
  have hcompound : Word.readCompound s.options k after = .ok none after := by
    rw [Word.readCompound_apply, hsecond]
  refine Scan.getToken_of_read hopening.unsaved ?_
  rw [hopening.lexemeRead_eq, bind_of_ok hcompound]
  rfl

/-- Where there is none, it is an error at the word itself. -/
theorem getToken_of_gt (hopening : OpeningWord s k word start after)
    (hroom : max s.options.maxToken 1 < (Word.following after).length) :
    ∃ failed, Scan.getToken s =
      .error (.reported (.ofCause .identifierTooLong
        (some { s.position with column := start }))) failed := by
  obtain ⟨h', hsecond⟩ := Word.readSecond_of_gt k hroom
  have hcompound : Word.readCompound s.options k after =
      .error (.reported .identifierTooLong) h' := by
    rw [Word.readCompound_apply, hsecond]
  have hread : Lexeme.read s.options s.head = .error (.reported .identifierTooLong) h' := by
    rw [hopening.lexemeRead_eq, bind_of_error hcompound]
  -- the lookahead moved along the line but noted no token of its own
  have hstart : h'.tokenStart = start :=
    (Word.preserves_readSecond (Head.moved_tokenStart start) s.options k).of_run
      hopening.tokenStart_after hsecond
  have hposition : Scanner.position { s with head := h' } =
      { s.position with column := start } := by
    have hline := ((Lexeme.orderly_read _).along_of_reported hread).line
    rw [Scanner.position_of_line hline, hstart]
  rw [← hposition, Scan.getToken_of_refused hopening.unsaved hread]
  exact ⟨_, rfl⟩

end OpeningWord

namespace Scan

/-- **A word that opens no compound** is the next token, and the scanner
stands just after it, exactly where there is room in a token for the word
bytes that come next. Where there is none it is an error at the word,
which reading on from just after it need not be. -/
theorem getToken_of_no_compound {s : Scanner} {k : Keyword} {word : Bytes} {start : Nat}
    {after : Head} (hopening : OpeningWord s k word start after)
    (hmiss : Word.joined? k after = none) :
    (getToken s = .ok (OpeningWord.single k word start) { s with head := after } ↔
      (Word.following after).length ≤ max s.options.maxToken 1) ∧
    (max s.options.maxToken 1 < (Word.following after).length →
      ∃ failed, getToken s =
        .error (.reported (.ofCause .identifierTooLong
          (some { s.position with column := start }))) failed) := by
  refine ⟨⟨fun hrun => ?_, hopening.getToken_of_le hmiss⟩, hopening.getToken_of_gt⟩
  rcases Nat.lt_or_ge (max s.options.maxToken 1) (Word.following after).length with hlong | hle
  · obtain ⟨failed, herror⟩ := hopening.getToken_of_gt hlong
    rw [herror] at hrun
    cases hrun
  · exact hle

/-! ### `END` before a binary number -/

/-- A scanner that just fetched its program's only line, `END 0` before
the bytes given. -/
def atEndBefore (rest : Bytes) : Scanner where
  options := {}
  resolver := .ofTexts []
  stack :=
    { program :=
        { contents := [[69, 78, 68, 32, 48] ++ rest]
          pending := [[]]
          fetches := 1 }
      programLine := 1 }
  head := { ahead := [69, 78, 68, 32, 48] ++ rest }

/-- The head just after `END`. -/
def afterEnd (rest : Bytes) : Head where
  behind := [68, 78, 69]
  ahead := 32 :: 48 :: rest
  column := 3
  lastRead := .pushedBack

theorem openingWord_end (rest : Bytes) :
    OpeningWord (atEndBefore rest) .END [69, 78, 68] 0 (afterEnd rest) where
  unsaved := rfl
  read := by
    let first : Head :=
      { behind := [69]
        ahead := [78, 68, 32, 48] ++ rest
        column := 1
        lastRead := .consumed }
    have hskip : Reader.skipBlanksFrom { ahead := [69, 78, 68, 32, 48] ++ rest } =
        (some 69, first) := by
      cbv
    have hread : Word.read {} 69 { first with tokenStart := 0 } =
        .ok [69, 78, 68] (afterEnd rest) := by
      cbv
    exact ⟨69, first, hskip, rfl, rfl, rfl, hread⟩
  keyword := by decide
  opens := rfl

/-- The end of a line after a zero that makes a binary number of it, with
as many digits as given. -/
def binaryNumber (digits : Nat) : Bytes := 98 :: List.replicate digits 49 ++ [10]

/-- Thirty digits and their marker have room in a token, so `END` is
one. -/
theorem getToken_end_before_number :
    OpeningWord (atEndBefore (binaryNumber 30)) .END [69, 78, 68] 0 (afterEnd (binaryNumber 30)) ∧
    Word.joined? .END (afterEnd (binaryNumber 30)) = none ∧
    getToken (atEndBefore (binaryNumber 30)) = .ok (OpeningWord.single .END [69, 78, 68] 0)
      { atEndBefore (binaryNumber 30) with head := afterEnd (binaryNumber 30) } := by
  have hopening := openingWord_end (binaryNumber 30)
  have hmiss : Word.joined? .END (afterEnd (binaryNumber 30)) = none := by cbv
  have hlength : (Word.following (afterEnd (binaryNumber 30))).length = 32 := by cbv
  have hroom : (Word.following (afterEnd (binaryNumber 30))).length ≤ max 32 1 := by omega
  exact ⟨hopening, hmiss, (getToken_of_no_compound hopening hmiss).1.mpr hroom⟩

/-- With one digit more `END` is an error, though the number is none just
after it. -/
theorem lookahead_not_transparent :
    ∃ s k word start after, (∃ begun, getLine begun = .ok true s) ∧
      OpeningWord s k word start after ∧ Word.joined? k after = none ∧
      (∃ t h, Lexeme.read s.options after = .ok t h ∧ t.kind = .number) ∧
      getToken s ≠ .ok (OpeningWord.single k word start) { s with head := after } := by
  let number : Token :=
    { kind := .number
      text := Bytes.text (List.replicate 31 49)
      value := 2147483647
      offset := 4 }
  let afterNumber : Head :=
    { behind := List.replicate 31 49 ++ [98, 48, 32, 68, 78, 69]
      ahead := [10]
      column := 37
      tokenStart := 4
      lastRead := .pushedBack }
  have hline : getLine (Scanner.start {} (.ofTexts [])
      (.ofBytes ([69, 78, 68, 32, 48] ++ binaryNumber 31))) =
      .ok true (atEndBefore (binaryNumber 31)) := by cbv
  have hmiss : Word.joined? .END (afterEnd (binaryNumber 31)) = none := by cbv
  have hnumber : Lexeme.read {} (afterEnd (binaryNumber 31)) = .ok number afterNumber := by cbv
  have hlength : (Word.following (afterEnd (binaryNumber 31))).length = 33 := by cbv
  have hlong : max 32 1 < (Word.following (afterEnd (binaryNumber 31))).length := by omega
  have hopening := openingWord_end (binaryNumber 31)
  obtain ⟨failed, herror⟩ := hopening.getToken_of_gt hlong
  refine ⟨_, _, _, _, _, ⟨_, hline⟩, hopening, hmiss, ⟨_, _, hnumber, rfl⟩, ?_⟩
  intro hrun
  rw [herror] at hrun
  cases hrun

end Scan

end BasicLexer
