import Mathlib.Data.List.Forall2
import BasicLexer.Proofs.Json.Lexemes

/-!
# JSON — values as they are written

A reading goes from one state to another over a piece of text
(`Json.Reads`), and pieces are put together by transitivity. A value is read
wherever one may come, inside whatever is open there (`Json.Gives`). Arrays and
objects have that in common that they are parts between two marks with commas
between them, so they are instances of one description (`Json.Bracket`) and
have one proof. Every text of the grammar, at any depth of nesting, has a value
(`Json.exists_ofText?_of_wellFormed`).
-/

namespace BasicLexer

namespace Json

variable {s rest rest' gap : List Char} {r r' r'' : Reading} {x : Lexeme} {frames : List Frame}

/-! ## Readings -/

/-- A reading goes on from one state to another over a text, up to where the
rest begins. -/
def Reads (s : List Char) (r : Reading) (rest : List Char) (r' : Reading) : Prop :=
  ∃ xs : List Lexeme, (∀ found, lexemesFrom found s = lexemesFrom (xs.reverse ++ found) rest) ∧
    xs.foldlM step r = some r'

namespace Reads

theorem trans (h : Reads s r rest r') (h' : Reads rest r' rest' r'') : Reads s r rest' r'' := by
  obtain ⟨xs, hlexemes, hsteps⟩ := h
  obtain ⟨ys, hlexemes', hsteps'⟩ := h'
  refine ⟨xs ++ ys, fun found => ?_, ?_⟩
  · rw [hlexemes, hlexemes', List.reverse_append, List.append_assoc]
  · rw [List.foldlM_append, hsteps]
    exact hsteps'

theorem blank (hgap : Blank gap) : Reads (gap ++ rest) r rest r :=
  ⟨[], fun _ => lexemesFrom_blank hgap, rfl⟩

theorem lexeme (hx : Lexes x s rest) (hstep : step r x = some r') : Reads s r rest r' := by
  refine ⟨[x], fun found => lexemesFrom_lexes hx, ?_⟩
  rw [List.foldlM_cons, hstep]
  rfl

/-- A reading that goes on at all goes on from every state that takes the same
lexemes. -/
theorem of_alike {r₀ : Reading} (h : Reads s r rest r') (hne : r' ≠ r)
    (halike : ∀ x r', step r x = some r' → step r₀ x = some r') : Reads s r₀ rest r' := by
  obtain ⟨xs, hlexemes, hsteps⟩ := h
  refine ⟨xs, hlexemes, ?_⟩
  cases xs with
  | nil => exact absurd (Option.some.inj hsteps).symm hne
  | cons x xs =>
    rw [List.foldlM_cons, Option.bind_eq_bind, Option.bind_eq_some_iff] at hsteps ⊢
    obtain ⟨r₁, hfirst, hmore⟩ := hsteps
    exact ⟨r₁, halike x r₁ hfirst, hmore⟩

end Reads

/-! ## What may follow -/

theorem ends_nil : Ends [] := nofun

theorem ends_cons {c : Char} (hc : c ∈ [' ', '\t', '\n', '\r', ',', ']', '\x7d']) :
    Ends (c :: rest) := by
  rintro d ⟨⟩
  exact hc

theorem Ends.blank (hrest : Ends rest) (hgap : Blank gap) : Ends (gap ++ rest) := by
  cases gap with
  | nil => exact hrest
  | cons c gap =>
    exact ends_cons (List.mem_append_left [',', ']', '\x7d'] (hgap c List.mem_cons_self))

/-! ## Values that hold no others -/

/-- A value is read off a text, wherever a value may come. -/
def Gives (text : List Char) (value : Json) : Prop :=
  ∀ frames rest, Ends rest → Reads (text ++ rest) ⟨.value, frames⟩ rest (complete value frames)

theorem gives_of_lexes {text : List Char} {value : Json}
    (hlexes : ∀ rest, Ends rest → Lexes x (text ++ rest) rest)
    (hbegin : ∀ frames, begin frames x = some (complete value frames)) : Gives text value :=
  fun frames rest hrest => .lexeme (hlexes rest hrest) (hbegin frames)

theorem gives_number {n : Number} {written : List Char} (hn : WritesNumber n written) :
    Gives written (.number n) := gives_of_lexes (fun _ => lexes_number hn) fun _ => rfl

theorem gives_string {pieces : List Piece} {written : List Char}
    (hpieces : WritesPieces pieces written) : Gives (quoted written) (.string pieces) :=
  gives_of_lexes (fun _ _ => lexes_string hpieces) fun _ => rfl

/-! ## Values that hold others -/

/-- A way to hold parts between two marks, and how it is read: from where it
is opened, up to a part, from a part to the next, and to its end. -/
structure Bracket (β : Type) where
  left : Char
  right : Char
  opening : Lexeme
  closing : Lexeme
  opened : List Frame → Reading
  next : List β → List Frame → Reading
  more : List β → List Frame → Reading
  value : List β → Json
  lexes_left : ∀ rest, Lexes opening (left :: rest) rest
  lexes_right : ∀ rest, Lexes closing (right :: rest) rest
  right_ends : right ∈ [' ', '\t', '\n', '\r', ',', ']', '\x7d']
  step_opening : ∀ frames, step ⟨.value, frames⟩ opening = some (opened frames)
  step_empty : ∀ frames, step (opened frames) closing = some (complete (value []) frames)
  step_first : ∀ frames x r, step (next [] frames) x = some r → step (opened frames) x = some r
  step_comma : ∀ held frames, step (more held frames) .comma = some (next held frames)
  step_closing : ∀ held frames,
    step (more held frames) closing = some (complete (value held.reverse) frames)
  next_ne : ∀ value frames held frames', complete value frames ≠ next held frames'

/-- A value is not the beginning of another. -/
theorem complete_expected (value : Json) (frames : List Frame) :
    (complete value frames).expected ≠ .value ∧
      ∀ members, (complete value frames).expected ≠ .key members := by
  rcases frames with _ | ⟨⟨⟩, frames⟩ <;> exact ⟨nofun, nofun⟩

/-- Arrays hold values. -/
def arrays : Bracket Json where
  left := '['
  right := ']'
  opening := .openArray
  closing := .closeArray
  opened frames := ⟨.item, frames⟩
  next held frames := ⟨.value, .array held :: frames⟩
  more held frames := ⟨.moreItems held, frames⟩
  value := .array
  lexes_left _ := .intro rfl rfl
  lexes_right _ := .intro rfl rfl
  right_ends := by decide
  step_opening _ := rfl
  step_empty _ := rfl
  step_first frames x r h := by
    cases x with
    | closeArray => cases h
    | _ => exact h
  step_comma _ _ := rfl
  step_closing _ _ := rfl
  next_ne value frames _ _ h := (complete_expected value frames).1 (congrArg Reading.expected h)

/-- Objects hold values by name. -/
def objects : Bracket (List Piece × Json) where
  left := '\x7b'
  right := '\x7d'
  opening := .openObject
  closing := .closeObject
  opened frames := ⟨.member, frames⟩
  next held frames := ⟨.key held, frames⟩
  more held frames := ⟨.moreMembers held, frames⟩
  value := .object
  lexes_left _ := .intro rfl rfl
  lexes_right _ := .intro rfl rfl
  right_ends := by decide
  step_opening _ := rfl
  step_empty _ := rfl
  step_first frames x r h := by
    cases x with
    | string => exact h
    | _ => cases h
  step_comma _ _ := rfl
  step_closing _ _ := rfl
  next_ne value frames _ _ h := (complete_expected value frames).2 _ (congrArg Reading.expected h)

namespace Bracket

variable {β : Type} (b : Bracket β) {parts : List (List Char)} {items : List β}

/-- A part is read where one may come, whatever is held already. -/
def Takes (part : List Char) (item : β) : Prop :=
  ∀ held frames rest, Ends rest →
    Reads (part ++ rest) (b.next held frames) rest (b.more (item :: held) frames)

/-- **The loop over the parts.** Each is taken in, and after the last the value
is complete. -/
theorem reads_parts (hparts : List.Forall₂ b.Takes parts items) (hne : parts ≠ [])
    (held : List β) (frames : List Frame) (rest : List Char) :
    Reads ([','].intercalate parts ++ b.right :: rest) (b.next held frames) rest
      (complete (b.value (held.reverse ++ items)) frames) := by
  induction hparts generalizing held with
  | nil => exact absurd rfl hne
  | @cons part item parts items hpart hparts ih =>
    cases hparts with
    | nil =>
      rw [List.intercalate_singleton]
      refine (hpart held frames _ (ends_cons b.right_ends)).trans ?_
      have hclose := b.step_closing (item :: held) frames
      rw [List.reverse_cons] at hclose
      exact .lexeme (b.lexes_right rest) hclose
    | @cons part' item' parts items hpart' hparts =>
      have hrest := ih (List.cons_ne_nil _ _) (item :: held)
      rw [List.reverse_cons, List.append_assoc] at hrest
      rw [List.intercalate_cons_cons, List.append_assoc, List.append_assoc]
      refine (hpart held frames _ (ends_cons (by decide))).trans (Reads.trans ?_ hrest)
      exact .lexeme (.intro rfl rfl) (b.step_comma _ _)

/-- **A value that holds others** is read, if each of its parts is. -/
theorem gives (hparts : List.Forall₂ b.Takes parts items) {written : List Char}
    (hwritten : Encloses b.left b.right parts written) : Gives written (b.value items) := by
  intro frames rest hrest
  cases hwritten with
  | empty hgap =>
    cases hparts
    rw [List.cons_append, List.append_assoc]
    exact (Reads.lexeme (b.lexes_left _) (b.step_opening frames)).trans
      ((Reads.blank hgap).trans (.lexeme (b.lexes_right rest) (b.step_empty frames)))
  | parts =>
    have hloop := b.reads_parts hparts (List.cons_ne_nil _ _) [] frames rest
    rw [List.cons_append, List.append_assoc]
    exact (Reads.lexeme (b.lexes_left _) (b.step_opening frames)).trans
      (hloop.of_alike (b.next_ne _ _ _ _) (b.step_first frames))

end Bracket

/-- An item of an array is taken with the blanks about it. -/
theorem takes_item {item : Item} {value : Json} (hspaced : item.Spaced)
    (hvalue : Gives item.value value) : arrays.Takes item.text value := by
  intro held frames rest hrest
  rw [Item.text, List.append_assoc, List.append_assoc]
  exact (Reads.blank hspaced.before).trans
    ((hvalue (.array held :: frames) _ (hrest.blank hspaced.after)).trans
      (.blank hspaced.after))

/-- A member of an object is taken with the blanks about it. -/
theorem takes_member {m : Member} {key : List Piece} {value : Json} (hspaced : m.Spaced)
    (hname : WritesPieces key m.name) (hvalue : Gives m.value value) :
    objects.Takes m.text (key, value) := by
  intro held frames rest hrest
  rw [Member.text]
  simp only [List.append_assoc, List.cons_append]
  have hcolon : Reads (':' :: (m.behind ++ (m.value ++ (m.after ++ rest))))
      ⟨.colon held key, frames⟩ (m.behind ++ (m.value ++ (m.after ++ rest)))
      ⟨.value, .object held key :: frames⟩ := .lexeme (.intro rfl rfl) rfl
  exact (Reads.blank hspaced.before).trans
    ((Reads.lexeme (lexes_string hname) rfl).trans
      ((Reads.blank hspaced.between).trans
        (hcolon.trans ((Reads.blank hspaced.behind).trans
          ((hvalue _ _ (hrest.blank hspaced.after)).trans (.blank hspaced.after))))))

theorem gives_array {items : List Item} {values : List Json} {written : List Char}
    (hspaced : ∀ item ∈ items, item.Spaced)
    (hvalues : List.Forall₂ (fun item value => Gives item.value value) items values)
    (hwritten : Encloses '[' ']' (items.map Item.text) written) :
    Gives written (.array values) := by
  refine arrays.gives (List.forall₂_map_left_iff.mpr ?_) hwritten
  exact ((List.forall₂_and_left (p := Item.Spaced) items values).mpr ⟨hspaced, hvalues⟩).imp
    fun _ _ h => takes_item h.1 h.2

theorem gives_object {members : List Member} {held : List (List Piece × Json)}
    {written : List Char} (hspaced : ∀ m ∈ members, m.Spaced)
    (hmembers : List.Forall₂ (fun m item => WritesPieces item.1 m.name ∧ Gives m.value item.2)
      members held)
    (hwritten : Encloses '\x7b' '\x7d' (members.map Member.text) written) :
    Gives written (.object held) := by
  refine objects.gives (List.forall₂_map_left_iff.mpr ?_) hwritten
  exact ((List.forall₂_and_left (p := Member.Spaced) members held).mpr ⟨hspaced, hmembers⟩).imp
    fun _ _ h => takes_member h.1 h.2.1 h.2.2

/-! ## All values -/

theorem exists_forall₂ {α β : Type} {R : α → β → Prop} {as : List α}
    (h : ∀ a ∈ as, ∃ b, R a b) : ∃ bs, List.Forall₂ R as bs := by
  induction as with
  | nil => exact ⟨[], .nil⟩
  | cons a as ih =>
    obtain ⟨ha, has⟩ := List.forall_mem_cons.mp h
    obtain ⟨b, hb⟩ := ha
    obtain ⟨bs, hbs⟩ := ih has
    exact ⟨b :: bs, .cons hb hbs⟩

/-- **Every text of the grammar is read**, to any depth. -/
theorem WellFormed.exists_gives {text : List Char} (htext : WellFormed text) :
    ∃ value, Gives text value := by
  induction htext with
  | null => exact ⟨.null, gives_of_lexes (fun _ _ => .intro rfl rfl) fun _ => rfl⟩
  | true => exact ⟨.bool Bool.true, gives_of_lexes (fun _ _ => .intro rfl rfl) fun _ => rfl⟩
  | false => exact ⟨.bool Bool.false, gives_of_lexes (fun _ _ => .intro rfl rfl) fun _ => rfl⟩
  | number hnumber => exact ⟨_, gives_number hnumber⟩
  | string hpieces => exact ⟨_, gives_string hpieces⟩
  | array hspaced _ hwritten ih =>
    obtain ⟨values, hvalues⟩ := exists_forall₂ ih
    exact ⟨.array values, gives_array hspaced hvalues hwritten⟩
  | @object members written hspaced hnames _ hwritten ih =>
    have hboth : ∀ m ∈ members, ∃ item : List Piece × Json,
        WritesPieces item.1 m.name ∧ Gives m.value item.2 := by
      intro m hm
      obtain ⟨key, hkey⟩ := hnames m hm
      obtain ⟨value, hvalue⟩ := ih m hm
      exact ⟨(key, value), hkey, hvalue⟩
    obtain ⟨held, hheld⟩ := exists_forall₂ hboth
    exact ⟨.object held, gives_object hspaced hheld hwritten⟩

/-- What is read of a value is what its text stands for. -/
theorem ofText?_of_gives {text lead trail : List Char} {value : Json} (hgives : Gives text value)
    (hlead : Blank lead) (htrail : Blank trail) :
    ofText? (String.ofList (lead ++ (text ++ trail))) = some value := by
  have hends : Ends trail := List.append_nil trail ▸ ends_nil.blank htrail
  have hreads : Reads (lead ++ (text ++ trail)) ⟨.value, []⟩ [] (complete value []) := by
    have hover : Reads (trail ++ []) (complete value []) [] (complete value []) := .blank htrail
    rw [List.append_nil] at hover
    exact (Reads.blank hlead).trans ((hgives [] trail hends).trans hover)
  obtain ⟨xs, hlexemes, hsteps⟩ := hreads
  rw [ofText?, String.toList_ofList, lexemes, hlexemes, lexemesFrom, List.append_nil,
    List.reverse_reverse, Option.bind_eq_bind, Option.bind_some, ofLexemes?, hsteps]
  rfl

/-- **Every text of the grammar stands for a value**, with blanks before it and
behind it. -/
theorem exists_ofText?_of_wellFormed {text lead trail : List Char} (htext : WellFormed text)
    (hlead : Blank lead) (htrail : Blank trail) :
    ∃ value, ofText? (String.ofList (lead ++ (text ++ trail))) = some value := by
  obtain ⟨value, hgives⟩ := htext.exists_gives
  exact ⟨value, ofText?_of_gives hgives hlead htrail⟩

end Json

end BasicLexer
