import BasicLexer.Proofs.Input.Chunks

/-!
# Input — the layout of a text

Where a text is cut is a matter of where its newlines are and of nothing
else: its layout. Texts of one layout are cut into pieces of one layout
(`Bytes.layout_pieces`), so that other bytes in the place of some that are no
newlines leave every line where it was.
-/

namespace BasicLexer

namespace Bytes

/-- Where the newlines among bytes are. -/
def layout (bytes : Bytes) : List Bool := bytes.map (· == Byte.newline)

variable {bytes bytes' : Bytes}

@[simp] theorem layout_nil : layout [] = [] := rfl

@[simp] theorem layout_cons (b : Byte) (rest : Bytes) :
    layout (b :: rest) = (b == Byte.newline) :: layout rest := rfl

@[simp] theorem layout_append (bytes more : Bytes) :
    layout (bytes ++ more) = layout bytes ++ layout more :=
  List.map_append

@[simp] theorem length_layout (bytes : Bytes) : bytes.layout.length = bytes.length :=
  List.length_map _

theorem layout_dropLast (bytes : Bytes) : layout bytes.dropLast = bytes.layout.dropLast :=
  List.map_dropLast

theorem length_eq_of_layout (hlayout : bytes'.layout = bytes.layout) :
    bytes'.length = bytes.length := by
  rw [← length_layout, hlayout, length_layout]

theorem eq_nil_iff_of_layout (hlayout : bytes'.layout = bytes.layout) :
    bytes' = [] ↔ bytes = [] := by
  rw [← List.length_eq_zero_iff, length_eq_of_layout hlayout, List.length_eq_zero_iff]

theorem newline_mem_iff (bytes : Bytes) : Byte.newline ∈ bytes ↔ true ∈ bytes.layout := by
  simp [layout]

theorem newline_mem_iff_of_layout (hlayout : bytes'.layout = bytes.layout) :
    Byte.newline ∈ bytes' ↔ Byte.newline ∈ bytes := by
  rw [newline_mem_iff, hlayout, ← newline_mem_iff]

theorem getLast?_newline_iff_of_layout (hlayout : bytes'.layout = bytes.layout) :
    bytes'.getLast? = some Byte.newline ↔ bytes.getLast? = some Byte.newline := by
  have hlast (bytes : Bytes) :
      bytes.getLast? = some Byte.newline ↔ bytes.layout.getLast? = some true := by
    rw [layout, List.getLast?_map]
    simp
  rw [hlast, hlayout, ← hlast]

/-- **Pieces of one layout** divide what they make up alike. -/
theorem Divided.of_layout {limit : Nat} {lines lines' : List Bytes}
    (hlines : Divided limit lines.flatten lines) (hlayout : lines'.map layout = lines.map layout) :
    Divided limit lines'.flatten lines' := by
  -- every one of the others has the layout of a piece of the text
  have hlike {lines lines' : List Bytes} (h : lines'.map layout = lines.map layout) :
      ∀ line' ∈ lines', ∃ line ∈ lines, line'.layout = line.layout := by
    intro line' hline'
    have hmem : line'.layout ∈ lines.map layout := h ▸ List.mem_map_of_mem hline'
    obtain ⟨line, hline, heq⟩ := List.mem_map.mp hmem
    exact ⟨line, hline, heq.symm⟩
  refine ⟨fun line' hline' hnil => ?_, rfl, fun line' hline' => ?_, fun line' hline' => ?_,
    fun line' hline' hnewline => ?_⟩
  · obtain ⟨line, hline, heq⟩ := hlike hlayout line' hline'
    refine hlines.nonempty line hline (List.eq_nil_of_length_eq_zero ?_)
    rw [← length_eq_of_layout heq, hnil, List.length_nil]
  · obtain ⟨line, hline, heq⟩ := hlike hlayout line' hline'
    have hbefore : layout line'.dropLast = layout line.dropLast := by
      rw [layout_dropLast, layout_dropLast, heq]
    rw [newline_mem_iff_of_layout hbefore]
    exact hlines.newline line hline
  · obtain ⟨line, hline, heq⟩ := hlike hlayout line' hline'
    rw [length_eq_of_layout heq]
    exact hlines.within line hline
  · have hlayout' : lines'.dropLast.map layout = lines.dropLast.map layout := by
      rw [List.map_dropLast, List.map_dropLast, hlayout]
    obtain ⟨line, hline, heq⟩ := hlike hlayout' line' hline'
    rw [length_eq_of_layout heq]
    exact hlines.full line hline fun h => hnewline ((newline_mem_iff_of_layout heq).mpr h)

/-- So other bytes in the pieces of a text are the pieces of another. -/
theorem pieces_flatten_of_layout {limit : Nat} {text : Bytes} {lines : List Bytes}
    (hlayout : lines.map layout = (pieces limit text).map layout) :
    pieces limit lines.flatten = lines := by
  have hdivided : Divided limit (pieces limit text).flatten (pieces limit text) := by
    rw [(divided_pieces limit text).whole]
    exact divided_pieces limit text
  exact (hdivided.of_layout hlayout).eq_pieces.symm

/-! ## Texts -/

theorem layout_firstLine {text text' : Bytes} (room : Nat) (hlayout : text'.layout = text.layout) :
    (firstLine room text').1.layout = (firstLine room text).1.layout ∧
      (firstLine room text').2.layout = (firstLine room text).2.layout := by
  induction text generalizing text' room with
  | nil =>
    rw [(eq_nil_iff_of_layout hlayout).mpr rfl]
    exact ⟨rfl, rfl⟩
  | cons b rest ih =>
    cases text' with
    | nil => cases hlayout
    | cons b' rest' =>
      obtain ⟨hb, hrest⟩ : (b' == Byte.newline) = (b == Byte.newline) ∧
          layout rest' = layout rest := List.cons.inj hlayout
      have hnewline : b' = Byte.newline ↔ b = Byte.newline := by
        rw [← beq_iff_eq, hb, beq_iff_eq]
      rw [firstLine, firstLine]
      by_cases hstop : b = Byte.newline ∨ room ≤ 1
      · rw [if_pos hstop, if_pos (hstop.imp_left hnewline.mpr)]
        exact ⟨by rw [layout_cons, layout_cons, hb], hrest⟩
      · rw [if_neg hstop, if_neg fun h => hstop (h.imp_left hnewline.mp)]
        obtain ⟨hfirst, hleft⟩ := ih (room - 1) hrest
        exact ⟨by rw [layout_cons, layout_cons, hb, hfirst], hleft⟩

/-- **Texts of one layout** are cut into pieces of one layout. -/
theorem layout_pieces {text text' : Bytes} (limit : Nat) (hlayout : text'.layout = text.layout) :
    (pieces limit text').map layout = (pieces limit text).map layout := by
  fun_induction pieces limit text generalizing text' with
  | case1 =>
    rw [(eq_nil_iff_of_layout hlayout).mpr rfl, pieces_nil]
  | case2 b rest ih =>
    have hne : text' ≠ [] := by
      rintro rfl
      cases hlayout
    obtain ⟨hfirst, hleft⟩ := layout_firstLine (max limit 1) hlayout
    rw [pieces_of_ne_nil limit hne, List.map_cons, List.map_cons, hfirst, ih hleft]

end Bytes

end BasicLexer
