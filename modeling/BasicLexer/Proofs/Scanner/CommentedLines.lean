import BasicLexer.Proofs.Reading.Contents
import BasicLexer.Proofs.Reading.Uncommented
import BasicLexer.Proofs.Scanner.LineTokens

/-!
# Scanner — lines with comments

The tokens of a line with comments say what those of the line without
them say (`Scan.lineContents_onLine`), and where one fails, so does the
other, for the same cause. It does not matter where the comments are, be
it inside a word or between the two words of a compound, nor whether the
line begins inside a block comment. Only the columns differ.
-/

namespace BasicLexer

open Grammar

/-- What a failure says: all but its place. -/
def Failure.content : Failure Diagnostic → Failure Diagnostic
  | .reported diagnostic => .reported { diagnostic with position := none }
  | .breach broken => .breach broken

/-- The scanner at the start of a line, inside a block comment or not. -/
def Scanner.onLine (s : Scanner) (line : Bytes) (inComment : Bool) : Scanner :=
  { s with head := { ahead := line, inComment }, saved := none }

/-- A line without its comments, which begins inside a block comment or
not: the bytes that reading it shows, and a newline. -/
def Bytes.stripped (inComment : Bool) (line : Bytes) : Bytes :=
  Scan.terminated (Head.visible { ahead := line, inComment })

namespace Bytes

theorem ended_terminated (line : Bytes) : Ended line (Scan.terminated line) := by
  unfold Scan.terminated
  split
  · exact .inl rfl
  · exact .inr rfl

/-- A newline at the end opens no comment and makes no opener with the
byte before it. -/
theorem Uncommented.ended {line ended : Bytes} (huncommented : line.Uncommented)
    (hended : Ended line ended) : ended.Uncommented := by
  rcases hended with rfl | rfl
  · exact huncommented
  have hpair {c : Byte} (hc : c ≠ Byte.newline) (h : ¬ [Byte.slash, c] <:+: line) :
      ¬ [Byte.slash, c] <:+: line ++ [Byte.newline] := by
    rw [List.infix_concat_iff, List.suffix_concat_iff]
    rintro ((hnil | ⟨t, ht, -⟩) | hinfix)
    · cases hnil
    · have hlast := congrArg List.getLast? ht
      rw [List.getLast?_concat] at hlast
      exact hc (Option.some.inj hlast)
    · exact h hinfix
  exact ⟨hpair (by decide) huncommented.1, hpair (by decide) huncommented.2⟩

theorem uncommented_stripped (inComment : Bool) (line : Bytes) :
    (line.stripped inComment).Uncommented :=
  (Head.uncommented_visible _).ended (ended_terminated _)

end Bytes

namespace Scan

/-- What the tokens of a line say, and what the failure they end in says,
if they do. -/
def lineContents (s : Scanner) : List (Kind × String × Int32) × Option (Failure Diagnostic) :=
  ((lineTokens s).1.1.map Token.content, (lineTokens s).1.2.map Failure.content)

/-- On a line that shows no quote, this is what the grammar makes of the
bytes that are shown. -/
theorem lineContents_of_unquoted {s : Scanner} (hsaved : s.saved = none) (hplaced : s.head.Placed)
    (hquotes : ∀ b ∈ s.head.visible, b ≠ Byte.doubleQuote ∧ b ≠ Byte.singleQuote) :
    lineContents s =
      let said := contents (scan s.options s.head.lineLength s.head.sights)
      (said.1, said.2.map fun cause => .reported (.ofCause cause none)) := by
  obtain ⟨position, s', htokens⟩ := lineTokens_of_unquoted hsaved hplaced hquotes
  rw [lineContents, htokens, Option.map_map]
  rfl

/-- **Comments make no difference** to what the tokens of a line say, nor
to the failure they end in, where no quote is shown. -/
theorem lineContents_onLine (s : Scanner) (line : Bytes) (inComment : Bool)
    (hquotes : Byte.doubleQuote ∉ line.stripped inComment ∧
      Byte.singleQuote ∉ line.stripped inComment) :
    lineContents (s.onLine line inComment) =
      lineContents (s.onLine (line.stripped inComment) false) := by
  let h : Head := { ahead := line, inComment }
  let plain : Head := { ahead := line.stripped inComment }
  have hended : h.visible.Ended (line.stripped inComment) := Bytes.ended_terminated _
  have hplain : plain.sights = (line.stripped inComment).zipIdx :=
    Head.sights_of_uncommented rfl (Bytes.uncommented_stripped inComment line)
  have hshown : plain.visible = line.stripped inComment := by
    rw [← plain.bytes_sights, hplain]
    exact List.zipIdx_map_fst _ _
  have hkept : ∀ b ∈ line.stripped inComment, b ≠ Byte.doubleQuote ∧ b ≠ Byte.singleQuote :=
    fun b hb => ⟨fun h => hquotes.1 (h ▸ hb), fun h => hquotes.2 (h ▸ hb)⟩
  rw [lineContents_of_unquoted (s := s.onLine line inComment) rfl rfl
      fun b hb => hkept b (hended.subset hb),
    lineContents_of_unquoted (s := s.onLine (line.stripped inComment) false) rfl rfl
      fun b hb => hkept b (hshown ▸ hb)]
  have hbytes : h.sights.bytes.Ended plain.sights.bytes := by
    rw [h.bytes_sights, plain.bytes_sights, hshown]
    exact hended
  have hsaid := contents_scan s.options h.lineLength plain.lineLength hbytes
  dsimp only [Scanner.onLine]
  rw [hsaid]

/-- A line with comments inside its tokens, the first of which was open
before: `*/E/*1*/nd /**/If</**/=0/*2*/x1 // END`. -/
def commentedLine : Bytes :=
  [42, 47, 69, 47, 42, 49, 42, 47, 110, 100, 32, 47, 42, 42, 47, 73, 102, 60, 47, 42, 42, 47, 61,
    48, 47, 42, 50, 42, 47, 120, 49, 32, 47, 47, 32, 69, 78, 68, 10]

/-- It says what `End If<=0x1 ` does. -/
theorem lineContents_commentedLine :
    lineContents ((Scanner.start {} (.ofTexts []) (.ofBytes [])).onLine commentedLine true) =
      lineContents ((Scanner.start {} (.ofTexts []) (.ofBytes [])).onLine
        [69, 110, 100, 32, 73, 102, 60, 61, 48, 120, 49, 32, 10] false) := by
  have hplain : commentedLine.stripped true =
      [69, 110, 100, 32, 73, 102, 60, 61, 48, 120, 49, 32, 10] := by cbv
  have hline := lineContents_onLine (Scanner.start {} (.ofTexts []) (.ofBytes [])) commentedLine
    true (by rw [hplain]; decide)
  rwa [hplain] at hline

end Scan

end BasicLexer
