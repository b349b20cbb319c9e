import BasicLexer.Proofs.Input.Chunks
import BasicLexer.Proofs.Reading.LineEnds
import BasicLexer.Proofs.Scanner.Respelled

/-!
# Scanner — a program with carriage returns

A program may end its lines with a newline or with a carriage return and a
newline. Where every line fits as it stands, the lines that are scanned are
the physical lines of the program (`Bytes.logicalLines_of_fits`), which with
carriage returns are the same but for their ends. So both programs are
scanned to tokens that say the same, or neither is scanned
(`Scan.scanAll_withReturns`).
-/

namespace BasicLexer

namespace Bytes

/-! ## Physical lines -/

/-- The lines of a text as they stand: it is cut behind every newline, and
nowhere else. -/
def physicalLines : Bytes → List Bytes
  | [] => []
  | b :: rest =>
    if b = Byte.newline then [b] :: physicalLines rest
    else
      match physicalLines rest with
      | [] => [[b]]
      | line :: lines => (b :: line) :: lines

theorem flatten_physicalLines (text : Bytes) : (physicalLines text).flatten = text := by
  fun_induction physicalLines text with
  | case1 => rfl
  | case2 rest ih => rw [List.flatten_cons, ih, List.singleton_append]
  | case3 b rest hb hlines ih => rw [← ih, hlines]; rfl
  | case4 b rest hb line lines hlines ih => rw [← ih, hlines]; rfl

theorem ne_nil_of_mem_physicalLines (text : Bytes) : ∀ line ∈ physicalLines text, line ≠ [] := by
  fun_induction physicalLines text with
  | case1 => exact List.forall_mem_nil _
  | case2 rest ih => exact List.forall_mem_cons.mpr ⟨List.cons_ne_nil _ _, ih⟩
  | case3 b rest hb hlines ih =>
    exact List.forall_mem_cons.mpr ⟨List.cons_ne_nil _ _, List.forall_mem_nil _⟩
  | case4 b rest hb line lines hlines ih =>
    rw [hlines] at ih
    exact List.forall_mem_cons.mpr ⟨List.cons_ne_nil _ _, (List.forall_mem_cons.mp ih).2⟩

/-- A physical line has a newline at its end only. -/
theorem newline_not_mem_dropLast_physicalLines (text : Bytes) :
    ∀ line ∈ physicalLines text, Byte.newline ∉ line.dropLast := by
  fun_induction physicalLines text with
  | case1 => exact List.forall_mem_nil _
  | case2 rest ih => exact List.forall_mem_cons.mpr ⟨List.not_mem_nil, ih⟩
  | case3 b rest hb hlines ih =>
    exact List.forall_mem_cons.mpr ⟨List.not_mem_nil, List.forall_mem_nil _⟩
  | case4 b rest hb line lines hlines ih =>
    have hline : line ≠ [] :=
      ne_nil_of_mem_physicalLines rest line (hlines ▸ List.mem_cons_self)
    rw [hlines] at ih
    obtain ⟨hnewline, hothers⟩ := List.forall_mem_cons.mp ih
    refine List.forall_mem_cons.mpr ⟨?_, hothers⟩
    rw [List.dropLast_cons_of_ne_nil hline]
    exact List.not_mem_cons_of_ne_of_not_mem (Ne.symm hb) hnewline

/-- And it has one, unless it is the last. -/
theorem newline_mem_physicalLines (text : Bytes) :
    ∀ line ∈ (physicalLines text).dropLast, Byte.newline ∈ line := by
  fun_induction physicalLines text with
  | case1 => exact List.forall_mem_nil _
  | case2 rest ih =>
    intro line hline
    rcases hrest : physicalLines rest with _ | ⟨next, lines⟩ <;> rw [hrest] at hline ih
    · cases hline
    · rcases List.mem_cons.mp hline with rfl | hmore
      · exact List.mem_singleton_self _
      · exact ih line hmore
  | case3 b rest hb hlines ih => exact List.forall_mem_nil _
  | case4 b rest hb line lines hlines ih =>
    intro other hother
    rw [hlines] at ih
    cases lines with
    | nil => cases hother
    | cons next lines =>
      obtain ⟨hfirst, hmore⟩ := List.forall_mem_cons.mp ih
      rcases List.mem_cons.mp hother with rfl | hother
      · exact List.mem_cons_of_mem b hfirst
      · exact hmore other hother

/-- **Where they all fit, the physical lines are the lines** that are
scanned. -/
theorem logicalLines_of_fits {limit : Nat} {text : Bytes}
    (hfits : ∀ line ∈ physicalLines text, line.length ≤ limit) :
    logicalLines limit text = (physicalLines text).map Scan.terminated := by
  have hdivided : Divided limit text (physicalLines text) :=
    { nonempty := ne_nil_of_mem_physicalLines text
      whole := flatten_physicalLines text
      newline := newline_not_mem_dropLast_physicalLines text
      within := fun line hline => Nat.le_trans (hfits line hline) (Nat.le_max_left _ _)
      full := fun line hline hnone => absurd (newline_mem_physicalLines text line hline) hnone }
  rw [logicalLines, ← hdivided.eq_pieces]

/-! ## Carriage returns -/

/-- A text with a carriage return before every newline. -/
def withReturns (text : Bytes) : Bytes :=
  text.flatMap fun b => if b = Byte.newline then [Byte.carriageReturn, Byte.newline] else [b]

theorem withReturns_newline (rest : Bytes) :
    withReturns (Byte.newline :: rest) =
      Byte.carriageReturn :: Byte.newline :: withReturns rest := rfl

theorem withReturns_cons {b : Byte} (hb : b ≠ Byte.newline) (rest : Bytes) :
    withReturns (b :: rest) = b :: withReturns rest := by
  rw [withReturns, List.flatMap_cons, if_neg hb, List.singleton_append, ← withReturns]

theorem withReturns_append (text more : Bytes) :
    withReturns (text ++ more) = withReturns text ++ withReturns more :=
  List.flatMap_append

/-- A text without a newline is left as it is. -/
theorem withReturns_of_not_mem {text : Bytes} (hnewline : Byte.newline ∉ text) :
    withReturns text = text := by
  induction text with
  | nil => rfl
  | cons b rest ih =>
    obtain ⟨hb, hrest⟩ := List.ne_and_not_mem_of_not_mem_cons hnewline
    rw [withReturns_cons hb.symm, ih hrest]

/-- No line is shorter with them. -/
theorem length_le_withReturns (text : Bytes) : text.length ≤ (withReturns text).length := by
  induction text with
  | nil => exact Nat.le_refl _
  | cons b rest ih =>
    by_cases hb : b = Byte.newline
    · rw [hb, withReturns_newline, List.length_cons, List.length_cons, List.length_cons]
      omega
    · rw [withReturns_cons hb, List.length_cons, List.length_cons]
      exact Nat.succ_le_succ ih

/-- **Carriage returns cut no line.** -/
theorem physicalLines_withReturns (text : Bytes) :
    physicalLines (withReturns text) = (physicalLines text).map withReturns := by
  fun_induction physicalLines text with
  | case1 => rfl
  | case2 rest ih =>
    rw [withReturns_newline, physicalLines, if_neg (by decide), physicalLines, if_pos rfl, ih]
    rfl
  | case3 b rest hb hlines ih =>
    rw [hlines] at ih
    rw [withReturns_cons hb, physicalLines, if_neg hb, ih, List.map_singleton,
      withReturns_cons hb]
    rfl
  | case4 b rest hb line lines hlines ih =>
    rw [hlines] at ih
    rw [withReturns_cons hb, physicalLines, if_neg hb, ih, List.map_cons, List.map_cons,
      withReturns_cons hb]

/-- A line that is scanned says the same with a carriage return before its
newline, if it has one. -/
theorem lines_withReturns {line : Bytes} (hnewline : Byte.newline ∉ line.dropLast) :
    Respelling.lineEnds.Lines (Scan.terminated line) (Scan.terminated line.withReturns) := by
  intro inComment
  have hplain : Ends [Byte.newline] :=
    ⟨List.cons_ne_nil _ _, fun b hb => .inl (List.mem_singleton.mp hb)⟩
  have hreturn : Ends [Byte.carriageReturn, Byte.newline] :=
    ⟨List.cons_ne_nil _ _, by simp⟩
  by_cases hmem : Byte.newline ∈ line
  · obtain ⟨body, last, rfl⟩ := (List.eq_nil_or_concat line).resolve_left (List.ne_nil_of_mem hmem)
    rw [List.concat_eq_append] at hmem hnewline ⊢
    rw [List.dropLast_concat] at hnewline
    obtain rfl : last = Byte.newline := by
      rcases List.mem_append.mp hmem with hbody | hlast
      · exact absurd hbody hnewline
      · exact (List.mem_singleton.mp hlast).symm
    have hended : withReturns (body ++ [Byte.newline]) =
        (body ++ [Byte.carriageReturn]) ++ [Byte.newline] := by
      rw [withReturns_append, withReturns_of_not_mem hnewline, List.append_assoc]
      rfl
    have hbody : Byte.newline ∉ body ++ [Byte.carriageReturn] := by
      rw [List.mem_append, List.mem_singleton]
      exact not_or.mpr ⟨hnewline, by decide⟩
    rw [hended, terminated_of_isLine ⟨body, hnewline, rfl⟩, terminated_of_isLine ⟨_, hbody, rfl⟩]
    exact .within body hplain hreturn rfl (List.append_assoc ..) rfl rfl
  · have hlast : line.getLast? ≠ some Byte.newline := fun h => hmem (List.mem_of_getLast? h)
    rw [withReturns_of_not_mem hmem, Scan.terminated, if_neg hlast]
    exact .within line hplain hplain rfl rfl rfl rfl

end Bytes

/-! ## Tokens -/

/-- Tokens that are the same, except that a line may end at another
offset. -/
structure Token.SameButEnd (t t' : Token) : Prop where
  kind : t'.kind = t.kind
  text : t'.text = t.text
  value : t'.value = t.value
  offset : t.kind ≠ .endOfLine → t'.offset = t.offset

theorem Token.Respelled.sameButEnd {t t' : Token}
    (hsame : t.Respelled Respelling.lineEnds.byte Respelling.lineEnds.ends t') :
    t.SameButEnd t' := by
  obtain ⟨bytes, htext, htext'⟩ := hsame.text
  refine ⟨hsame.kind, ?_, hsame.value, fun hkind => ?_⟩
  · rw [htext, htext']
    exact congrArg Bytes.text (List.map_id bytes)
  · have hoffset := hsame.offset
    rwa [if_neg hkind] at hoffset

namespace Scan

/-- **Line ends are no matter.** Take any program, any options and any include
files. With a carriage return before every newline the program is scanned to
the same tokens, wherever lines end, or neither program is scanned and both
fail on the same line; provided that no physical line with a carriage return
is longer than lines may be. -/
theorem scanAll_withReturns (options : Options) (resolver resolver' : Resolver) {program : Bytes}
    (hfits : ∀ line ∈ program.withReturns.physicalLines, line.length ≤ options.maxLine) :
    match scanAll (.start options resolver (.ofBytes program)),
      scanAll (.start options resolver' (.ofBytes program.withReturns)) with
    | .ok tokens _, .ok tokens' _ => List.Forall₂ Token.SameButEnd tokens tokens'
    | .error (.reported d) _, .error (.reported d') _ =>
      ∃ p p', d.position = some p ∧ d'.position = some p' ∧ p'.line = p.line
    | _, _ => False := by
  have hfits' : ∀ line ∈ program.physicalLines, line.length ≤ options.maxLine := by
    intro line hline
    have hmem : line.withReturns ∈ program.withReturns.physicalLines := by
      rw [Bytes.physicalLines_withReturns]
      exact List.mem_map_of_mem hline
    exact Nat.le_trans (Bytes.length_le_withReturns line) (hfits _ hmem)
  have hlines : List.Forall₂ Respelling.lineEnds.Lines
      (Bytes.logicalLines options.maxLine program)
      (Bytes.logicalLines options.maxLine program.withReturns) := by
    rw [Bytes.logicalLines_of_fits hfits', Bytes.logicalLines_of_fits hfits,
      Bytes.physicalLines_withReturns, List.map_map, List.forall₂_map_left_iff,
      List.forall₂_map_right_iff, List.forall₂_same]
    intro line hline
    exact Bytes.lines_withReturns (Bytes.newline_not_mem_dropLast_physicalLines program line hline)
  rcases Respelling.outcomes_scanAll resolver resolver' hlines with
    ⟨tokens, tokens', s, s', hrun, hrun', htokens⟩ | ⟨failure, failure', s, s', hrun, hrun', hsame⟩
  · rw [hrun, hrun']
    exact htokens.imp fun _ _ hsame => hsame.sameButEnd
  · rw [hrun, hrun']
    cases hsame with
    | same number hrefused hlines => exact ⟨_, _, rfl, rfl, rfl⟩

/-- Two lines, `a <` and a character. -/
def twoLines : Bytes := [97, 32, 60, 10, 39, 98, 39, 10]

/-- No carriage return makes an operator of the sign or ends the character,
and only the ends of the lines are elsewhere. -/
theorem scanAll_withReturns_twoLines :
    let tokens : List Token :=
      [{ kind := .identifier, text := "a", offset := 0 },
        { kind := .character Byte.less, offset := 2 }, { kind := .endOfLine, offset := 4 },
        { kind := .number, text := "b", value := 98, offset := 0 },
        { kind := .endOfLine, offset := 4 }, Listing.endToken]
    (∀ line ∈ twoLines.withReturns.physicalLines, line.length ≤ 5) ∧
      ∃ s s' tokens',
        scanAll (.start { maxLine := 5 } (.ofTexts []) (.ofBytes twoLines)) =
          .ok tokens s ∧
        scanAll (.start { maxLine := 5 } (.ofTexts []) (.ofBytes twoLines.withReturns)) =
          .ok tokens' s' ∧
        List.Forall₂ Token.SameButEnd tokens tokens' := by
  intro tokens
  have hfits : ∀ line ∈ twoLines.withReturns.physicalLines, line.length ≤ 5 := by
    decide +kernel
  have houtcome : outcome { maxLine := 5 } 0 false (Bytes.logicalLines 5 twoLines) =
      .ok (tokens, false) := by
    decide +kernel
  have hends := scanAll_start { maxLine := 5 } (.ofTexts []) twoLines
  have hsame := scanAll_withReturns { maxLine := 5 } (.ofTexts []) (.ofTexts []) hfits
  rw [houtcome] at hends
  obtain ⟨s, hrun, -⟩ := hends
  rw [hrun] at hsame
  refine ⟨hfits, ?_⟩
  rcases hrun' :
      scanAll (.start { maxLine := 5 } (.ofTexts []) (.ofBytes twoLines.withReturns)) with
    ⟨tokens', s'⟩ | ⟨failure, s'⟩ <;> rw [hrun'] at hsame
  · exact ⟨s, s', tokens', hrun, rfl, hsame⟩
  · exact hsame.elim

end Scan

end BasicLexer
