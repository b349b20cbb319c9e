import BasicLexer.Proofs.Input.LinesLeft
import BasicLexer.Proofs.Reading.Outside
import BasicLexer.Scanner.Lines
import Mathlib.Data.List.DropRight

/-!
# Scanner — carets

The last two lines of a report are the line it is about and a caret
(`Diagnostic.lines_render`). However many tokens a line has given, the
scanner still has the whole line and knows its place in it
(`Scanner.OnLine.placed`, `Scanner.OnLine.isLine`). So the caret of a token
that fails stands under the first byte ahead that is no blank and in no
comment, and that byte is one of those shown (`Scan.caret_of_getToken`). A
line fits the limit on lines, so no column in it is the largest word
(`Scanner.OnLine.lt_of_lt_length_shown`).
-/

namespace BasicLexer

/-! ## The line that is shown -/

namespace Byte

/-- Whether a byte is one of those that end lines. -/
def endsLine (b : Byte) : Bool := b == newline || b == carriageReturn

theorem endsLine_toChar (b : Byte) : Position.endsLine b.toChar = b.endsLine := by
  have hreturn : b.toChar = '\r' ↔ b = carriageReturn := toChar_inj (c := carriageReturn)
  simp only [Position.endsLine, endsLine, toChar_eq_newline, hreturn, beq_eq_decide]

/-- What ends lines is a blank. -/
theorem isBlank_of_endsLine {b : Byte} (hb : b.endsLine = true) : b.isBlank = true := by
  rw [endsLine, Bool.or_eq_true, beq_iff_eq, beq_iff_eq] at hb
  rcases hb with rfl | rfl <;> rfl

end Byte

namespace Bytes

variable {bytes : Bytes}

/-- A line as it is shown, without the bytes that end it. -/
def shown (bytes : Bytes) : Bytes := bytes.rdropWhile Byte.endsLine

theorem shownText_of_text {p : Position} (htext : p.text = bytes.text) :
    p.shownText = (shown bytes).text := by
  have hends : Position.endsLine ∘ Byte.toChar = Byte.endsLine := funext Byte.endsLine_toChar
  rw [Position.shownText, htext, toList_text, ← List.map_reverse, List.dropWhile_map, hends,
    ← List.map_reverse]
  rfl

/-- What is shown of a line is one line. -/
theorem newline_notMem_shown (hline : bytes.IsLine) : '\n' ∉ (shown bytes).text.toList := by
  obtain ⟨body, hbody, rfl⟩ := hline
  rw [toList_text, shown, List.rdropWhile_concat_pos _ _ _ rfl]
  intro hmem
  obtain ⟨b, hb, hnewline⟩ := List.mem_map.mp hmem
  rw [Byte.toChar_eq_newline.mp hnewline] at hb
  exact hbody ((List.rdropWhile_prefix Byte.endsLine body).subset hb)

/-- The newline of a line is not shown. -/
theorem length_shown_lt (hline : bytes.IsLine) : (shown bytes).length < bytes.length := by
  obtain ⟨body, -, rfl⟩ := hline
  rw [shown, List.rdropWhile_concat_pos _ _ _ rfl, List.length_append]
  exact Nat.lt_succ_of_le (List.rdropWhile_prefix Byte.endsLine body).length_le

/-- A byte of a line that is no blank is shown. -/
theorem lt_length_shown {k : Nat} {b : Byte} (hbyte : bytes[k]? = some b)
    (hblank : b.isBlank = false) : k < (shown bytes).length := by
  by_contra hk
  have hsplit : shown bytes ++ bytes.rtakeWhile Byte.endsLine = bytes :=
    List.rdropWhile_append_rtakeWhile
  rw [← hsplit, List.getElem?_append_right (Nat.le_of_not_lt hk)] at hbyte
  have hends := List.mem_rtakeWhile_imp (List.mem_of_getElem? hbyte)
  rw [Byte.isBlank_of_endsLine hends] at hblank
  cases hblank

end Bytes

/-! ## The report -/

/-- **A report ends** in the line it shows and the caret. -/
theorem Diagnostic.lines_render {d : Diagnostic} {p : Position} (hposition : d.position = some p)
    (hshown : '\n' ∉ p.shownText.toList) :
    ∃ above, d.render.toList.splitOn '\n' =
      above ++ [("    " ++ p.shownText).toList, ("    " ++ p.caret).toList, []] := by
  have hshown' : '\n' ∉ ("    " ++ p.shownText).toList := by simpa using hshown
  have hcaret : '\n' ∉ ("    " ++ p.caret).toList := by simp [Position.caret]
  have hreport : d.render.toList =
      (d.summary ++ "\n  " ++ p.label).toList ++ '\n' :: (("    " ++ p.shownText).toList ++
        '\n' :: (("    " ++ p.caret).toList ++ '\n' :: [])) := by
    simp [render, hposition, renderPosition]
  have hline {line rest : List Char} (hfree : '\n' ∉ line) :
      (line ++ '\n' :: rest).splitOn '\n' = line :: rest.splitOn '\n' := by
    have hnone : ∀ c ∈ line, (c == '\n') = false := fun c hc =>
      beq_false_of_ne fun h => hfree (h ▸ hc)
    exact List.splitOnP_append_cons_of_forall_mem hnone '\n' rfl rest
  refine ⟨(d.summary ++ "\n  " ++ p.label).toList.splitOn '\n', ?_⟩
  rw [hreport, List.splitOn_eq_splitOnP, List.splitOnP_append_cons _ _ (p := (· == '\n')) rfl,
    ← List.splitOn_eq_splitOnP, ← List.splitOn_eq_splitOnP, hline hshown', hline hcaret,
    List.splitOn_nil]

namespace Scanner

/-! ## A line and its tokens -/

/-- The states of a scanner on a line: one was fetched, and since then tokens
of it were taken, and saved for later. -/
inductive OnLine : Scanner → Prop
  | fetched {s s' : Scanner} (hline : Scan.getLine s = .ok true s') : OnLine s'
  | taken {s s' : Scanner} {t : Token} (hs : OnLine s) (htoken : Scan.getToken s = .ok t s') :
    OnLine s'
  | saved {s s' : Scanner} {t : Token} (hs : OnLine s) (hsave : Scan.saveToken t s = .ok () s') :
    OnLine s'

end Scanner

namespace Scan

/-- A line that is fetched is a logical line of a text. -/
theorem exists_text_of_getLine {s s' : Scanner} (hline : getLine s = .ok true s') :
    ∃ text, s'.head.line ∈ Bytes.logicalLines s'.options.maxLine text := by
  obtain ⟨b, raw, stack, hfetch, rfl⟩ := fetch_of_getLine hline
  exact Stack.exists_text_of_mem_linesOf
    ((Stack.lines_of_fetchFrom hfetch).subset List.mem_cons_self)

/-- A token that is taken leads along the line. -/
theorem along_getToken {s s' : Scanner} {t : Token} (htoken : getToken s = .ok t s') :
    s.head.Along s'.head ∧ s'.options = s.options := by
  rcases getToken_eq_ok htoken with ⟨-, rfl⟩ | ⟨-, head, hread, rfl⟩
  · exact ⟨.refl _, rfl⟩
  · exact ⟨(Lexeme.orderly_read _).along_of_ok hread, rfl⟩

theorem head_saveToken {s s' : Scanner} {t : Token} (hsave : saveToken t s = .ok () s') :
    s'.head = s.head ∧ s'.options = s.options := by
  unfold saveToken at hsave
  split at hsave <;> cases hsave
  exact ⟨rfl, rfl⟩

end Scan

namespace Scanner.OnLine

variable {s : Scanner}

/-- On a line the head knows its place. -/
theorem placed (hs : s.OnLine) : s.head.Placed := by
  induction hs with
  | fetched hline =>
    obtain ⟨_, _, _, -, rfl⟩ := Scan.fetch_of_getLine hline
    rfl
  | taken _ htoken ih => exact (Scan.along_getToken htoken).1.placed ih
  | saved _ hsave ih => rwa [(Scan.head_saveToken hsave).1]

/-- On a line the head has the whole line, behind it and ahead. -/
theorem exists_text (hs : s.OnLine) :
    ∃ text, s.head.line ∈ Bytes.logicalLines s.options.maxLine text := by
  induction hs with
  | fetched hline => exact Scan.exists_text_of_getLine hline
  | taken _ htoken ih =>
    obtain ⟨halong, hoptions⟩ := Scan.along_getToken htoken
    rwa [halong.line, hoptions]
  | saved _ hsave ih =>
    obtain ⟨hhead, hoptions⟩ := Scan.head_saveToken hsave
    rwa [hhead, hoptions]

theorem isLine (hs : s.OnLine) : s.head.line.IsLine :=
  have ⟨_, htext⟩ := hs.exists_text
  Bytes.isLine_of_mem_logicalLines htext

/-- On a line a word comes after every column that is shown: there is the
newline behind it, and the line fits the limit. -/
theorem lt_of_lt_length_shown (hs : s.OnLine) {column : Nat}
    (hcolumn : column < (Bytes.shown s.head.line).length) : column + 1 < UInt64.size := by
  obtain ⟨text, htext⟩ := hs.exists_text
  have hshown := Bytes.length_shown_lt hs.isLine
  have hlength := Bytes.length_le_of_mem_logicalLines htext
  have hlimit := s.options.maxLine_lt
  have hword : 1 < UInt64.size := by decide
  omega

end Scanner.OnLine

namespace Scan

open Bytes

/-- **The caret points at the token that fails.** Let a token fail on a line
that has given any tokens before. Then of the bytes ahead that stand in no
comment some are no blanks, and the first of them is one of those shown; and
the report ends in the line as it is shown and a caret under that byte. -/
theorem caret_of_getToken {s s' : Scanner} {d : Diagnostic} (hs : s.OnLine)
    (hfails : getToken s = .error (.reported d) s') :
    let line := s.head.line
    ∃ b k above,
      (outside s.head.inComment s.head.column (line.drop s.head.column)).find?
          (fun sight => !sight.1.isBlank) = some (b, k) ∧
        s.head.line[k]? = some b ∧ k < (shown line).length ∧
        d.render.toList.splitOn '\n' =
          above ++ [("    " ++ (shown line).text).toList,
            "    ".toList ++ List.replicate k ' ' ++ ['^'], []] := by
  intro line
  obtain ⟨cause, head, hread, rfl⟩ := getToken_eq_reported hfails
  obtain ⟨b, hfirst, hbyte, hblank⟩ := Lexeme.first_of_refused hs.placed hread
  have hline := ((Lexeme.orderly_read s.options).along_of_reported hread).line
  let place : Position := Scanner.position { s with head }
  have htext : place.shownText = (shown line).text :=
    shownText_of_text (congrArg Bytes.text hline)
  have hk := lt_length_shown hbyte hblank
  have hcaret : ("    " ++ place.caret).toList =
      "    ".toList ++ List.replicate head.tokenStart ' ' ++ ['^'] := by
    rw [Position.caret_of_lt (p := place) (hs.lt_of_lt_length_shown hk)]
    simp [place, Scanner.position]
  have hfree : '\n' ∉ place.shownText.toList := htext ▸ newline_notMem_shown hs.isLine
  obtain ⟨above, hlines⟩ :=
    Diagnostic.lines_render (d := .ofCause cause (some place)) rfl hfree
  rw [htext, hcaret] at hlines
  exact ⟨b, head.tokenStart, above, hfirst, hbyte, hk, hlines⟩

/-- The line `X /* ' */ 'ab`, which ends in a carriage return and a newline. -/
def quoteInComment : Bytes := [88, 32, 47, 42, 32, 39, 32, 42, 47, 32, 39, 97, 98, 13, 10]

/-- Behind the word it begins with, the caret stands under the quote that is
never closed and not under the one in the comment. -/
theorem caret_quoteInComment :
    ∃ s₁ s₂ s₃ t d,
      getLine (.start {} (.ofTexts []) (.ofBytes quoteInComment)) = .ok true s₁ ∧
      getToken s₁ = .ok t s₂ ∧ getToken s₂ = .error (.reported d) s₃ ∧ d.code = 1004 ∧
      ∃ above, d.render.toList.splitOn '\n' =
        above ++ ["    X /* ' */ 'ab".toList, "              ^".toList, []] := by
  let program : Source := { contents := [quoteInComment], pending := [[]], fetches := 1 }
  let s₁ : Scanner :=
    { options := {}
      resolver := .ofTexts []
      stack := { program, programLine := 1 }
      head := { ahead := quoteInComment } }
  let word : Head :=
    { behind := [88], ahead := quoteInComment.tail, column := 1, lastRead := .pushedBack }
  let quote : Head :=
    { behind := (quoteInComment.take 13).reverse, ahead := [13, 10], column := 13,
      tokenStart := 10, lastRead := .consumed }
  have hline : getLine (.start {} (.ofTexts []) (.ofBytes quoteInComment)) = .ok true s₁ := by cbv
  have hword : Lexeme.read {} s₁.head =
      .ok { kind := .identifier, text := "X", offset := 0 } word := by cbv
  have hquote : Lexeme.read {} word = .error (.reported .expectingClosingQuote) quote := by cbv
  have htoken := getToken_of_read (s := s₁) rfl hword
  have hfails := getToken_of_refused (s := { s₁ with head := word }) rfl hquote
  refine ⟨s₁, _, _, _, _, hline, htoken, hfails, rfl, ?_⟩
  obtain ⟨b, k, above, hfirst, -, -, hlines⟩ :=
    caret_of_getToken (.taken (.fetched hline) htoken) hfails
  have hk : (outside false 1 (quoteInComment.drop 1)).find? (fun sight => !sight.1.isBlank) =
      some (39, 10) := by decide
  cases hk.symm.trans hfirst
  exact ⟨above, hlines⟩

end Scan

end BasicLexer
