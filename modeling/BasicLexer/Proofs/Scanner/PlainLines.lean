import BasicLexer.Proofs.Reading.Uncommented
import BasicLexer.Proofs.Scanner.LineTokens

/-!
# Scanner — lines without comments

A line without quotes and comments, none of whose runs of word bytes is
too long for a token, has exactly the tokens of the grammar, at the
columns where they are written (`Scan.lineTokens_eq_tokens`). The limit is
held against every run, also against those that are part of a number or
only looked at after a word, so nothing is left that could be refused.
-/

namespace BasicLexer

open Grammar

namespace Bytes

/-- Every run of word bytes has at most so many of them. -/
def RunsWithin (limit : Nat) (bytes : Bytes) : Prop :=
  ∀ run, run <:+: bytes → (∀ b ∈ run, b.isWord = true) → run.length ≤ limit

/-- Runs of a part are runs of the whole. -/
theorem RunsWithin.mono {limit : Nat} {bytes part : Bytes} (hruns : bytes.RunsWithin limit)
    (hpart : part <:+: bytes) : part.RunsWithin limit :=
  fun run hrun hword => hruns run (hrun.trans hpart) hword

/-- No run is longer than the bytes it is in. -/
theorem runsWithin_of_length_le {limit : Nat} {bytes : Bytes} (hlength : bytes.length ≤ limit) :
    bytes.RunsWithin limit :=
  fun _ hrun _ => Nat.le_trans hrun.length_le hlength

end Bytes

namespace Grammar

open Bytes

variable {options : Options}

/-- The run of word bytes in front of a part is no longer than the
limit. -/
theorem length_wordRun_le {limit : Nat} {bytes part : Bytes} (hruns : bytes.RunsWithin limit)
    (hpart : part <:+: bytes) : (wordRun part).length ≤ limit :=
  hruns _ ((List.takeWhile_prefix _).isInfix.trans hpart) (List.all_eq_true.mp List.all_takeWhile)

/-- **Nothing is refused** where numbers wrap and every run of word bytes
has room. -/
theorem refusal?_eq_none {b : Byte} {rest : Bytes} (hwrap : options.literalOverflow = .wrap)
    (hruns : RunsWithin options.maxToken (b :: rest)) : refusal? options b rest = none := by
  have hroom : options.maxToken ≤ room options := Nat.le_max_left _ _
  unfold refusal?
  by_cases hdigit : b.isDigit = true
  · have hkept : ¬ (figure b rest).Refused options := by
      rintro ⟨herror, -⟩
      rw [hwrap] at herror
      cases herror
    rw [if_pos hdigit, if_neg hkept]
  rw [if_neg hdigit]
  by_cases hword : b.isWord = true
  · have hfirst : (wordRun (b :: rest)).length ≤ options.maxToken :=
      length_wordRun_le hruns (List.infix_refl _)
    have hsecond : (secondRun rest).length ≤ options.maxToken :=
      length_wordRun_le hruns
        (((List.dropWhile_suffix _).trans (List.dropWhile_suffix _)).trans
          (List.suffix_cons b rest)).isInfix
    rw [wordRun, List.takeWhile_cons_of_pos hword, ← wordRun] at hfirst
    dsimp only
    rw [if_pos hword, if_neg (by omega), if_neg (by omega)]
  · rw [if_neg hword]

theorem drop_zipIdx (n column : Nat) (bytes : Bytes) :
    (bytes.zipIdx column).drop n = (bytes.drop n).zipIdx (column + n) := by
  induction bytes generalizing n column with
  | nil => simp
  | cons b rest ih =>
    cases n with
    | zero => rfl
    | succ n => rw [List.zipIdx_cons, List.drop_succ_cons, List.drop_succ_cons, ih,
        Nat.add_right_comm, Nat.add_assoc]

/-- **Scanning bytes that are shown as they are** gives the tokens of the
line, when nothing is refused. -/
theorem scan_zipIdx {line : Bytes} {column : Nat} (hwrap : options.literalOverflow = .wrap)
    (hruns : line.RunsWithin options.maxToken) :
    scan options (column + line.length) (line.zipIdx column) = (tokens column line, none) := by
  fun_induction tokens column line with
  | case1 column => rw [List.zipIdx_nil, scan]; rfl
  | case2 column b rest hblank ih =>
    have hrest := ih (hruns.mono (List.suffix_cons b rest).isInfix)
    rw [List.zipIdx_cons, scan, if_pos hblank, List.length_cons, ← hrest]
    congr 1
    omega
  | case3 column b rest hblank found ih =>
    have htaken : found.taken ≤ rest.length := taken_item_le b rest
    have hkept := refusal?_eq_none hwrap hruns
    have hrest := ih (hruns.mono
      ((List.drop_suffix _ rest).trans (List.suffix_cons b rest)).isInfix)
    have hbytes : Shown.bytes (rest.zipIdx (column + 1)) = rest := List.zipIdx_map_fst _ rest
    have houtcome : outcome options b column (rest.zipIdx (column + 1)) =
        .ok (found.token column, (rest.drop found.taken).zipIdx (column + 1 + found.taken)) := by
      rw [outcome_eq_ok, hbytes]
      exact ⟨hkept, rfl, (drop_zipIdx ..).symm⟩
    have hlast : column + (b :: rest).length =
        column + 1 + found.taken + (rest.drop found.taken).length := by
      rw [List.length_cons, List.length_drop]
      omega
    rw [List.zipIdx_cons, scan_of_cons _ _ (by rw [List.dropWhile_cons, if_neg hblank]), houtcome,
      hlast]
    dsimp only
    rw [hrest]

end Grammar

namespace Scan

/-- **A plain line has the tokens of the grammar**, at the columns where
they are written, and no other; scanning it does not fail. -/
theorem lineTokens_eq_tokens {s : Scanner} {line : Bytes} (hsaved : s.saved = none)
    (hhead : s.head = { ahead := line }) (hwrap : s.options.literalOverflow = .wrap)
    (hquotes : Byte.doubleQuote ∉ line ∧ Byte.singleQuote ∉ line)
    (huncommented : line.Uncommented) (hruns : line.RunsWithin s.options.maxToken) :
    ∃ s', lineTokens s = ((tokens 0 line, none), s') := by
  have hsights : s.head.sights = line.zipIdx 0 := by
    rw [hhead]
    exact Head.sights_of_uncommented rfl huncommented
  have hvisible : s.head.visible = line := by
    rw [← s.head.bytes_sights, hsights]
    exact List.zipIdx_map_fst _ line
  have hplaced : s.head.Placed := by
    rw [hhead]
    rfl
  have hlength : s.head.lineLength = 0 + line.length := by
    rw [hhead]
    rfl
  obtain ⟨position, s', htokens⟩ := lineTokens_of_unquoted hsaved hplaced fun b hb => by
    rw [hvisible] at hb
    exact ⟨fun h => hquotes.1 (h ▸ hb), fun h => hquotes.2 (h ▸ hb)⟩
  rw [hsights, hlength, scan_zipIdx hwrap hruns] at htokens
  exact ⟨s', htokens⟩

/-- A line on which `End` makes a compound once, and once stands before a
number: `End  If a1<=0x_fF>End 07`. -/
def plainLine : Bytes :=
  [69, 110, 100, 32, 32, 73, 102, 32, 97, 49, 60, 61, 48, 120, 95, 102, 70, 62, 69, 110, 100, 32,
    48, 55, 10]

/-- Its tokens. -/
def plainTokens : List Token :=
  [{ kind := .compound .endIf, text := "End If", offset := 0 },
   { kind := .identifier, text := "a1", offset := 8 },
   { kind := .operator .lessEqual, offset := 10 },
   { kind := .number, text := "fF", value := 255, offset := 12 },
   { kind := .character Byte.greater, offset := 17 },
   { kind := .keyword .END, text := "End", offset := 18 },
   { kind := .number, text := "07", value := 7, offset := 22 },
   { kind := .endOfLine, offset := 25 }]

/-- They are read under the default options, for which no line of 25 bytes
is too long. -/
theorem lineTokens_plainLine :
    ∃ s', lineTokens { Scanner.start {} (.ofTexts []) (.ofBytes []) with
      head := { ahead := plainLine } } = ((plainTokens, none), s') := by
  have htokens : tokens 0 plainLine = plainTokens := by cbv
  have hline := lineTokens_eq_tokens
    (s := { Scanner.start {} (.ofTexts []) (.ofBytes []) with head := { ahead := plainLine } })
    rfl rfl rfl (by decide) (by decide) (Bytes.runsWithin_of_length_le (by decide))
  rwa [htokens] at hline

end Scan

end BasicLexer
