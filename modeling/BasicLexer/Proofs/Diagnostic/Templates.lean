import BasicLexer.Proofs.Diagnostic.Replacement
import BasicLexer.Diagnostic.Cause

/-!
# Diagnostics — filling a template

A template is a run of characters and holes, and filled it has in the place
of each hole the argument with its number, whatever the argument says
(`Message.filled`). `Message.format` goes over the whole text once for every
argument instead, and sees what the earlier ones brought in. Up to any of the
arguments it has filled the template exactly if no argument found a hole to
fill that is not the template's (`Message.format_eq_filled_iff`), and then it
has filled it with all of them (`Message.format_eq_filled`). Of the
messages that there are, that of a read error puts in two texts that it has
no say in, and a file that is called by a hole shows
(`Message.text_readError_iff`).
-/

namespace BasicLexer

namespace Message

/-! ## Holes -/

/-- The number of the hole a text begins with. -/
def hole? : List Char → Option Nat
  | [] => none
  | c :: rest =>
    let i := Nat.ofDigitChars 10 (rest.takeWhile Char.isDigit) 0
    if (hole i).isPrefixOf (c :: rest) then some i else none

theorem hole?_hole_append (i : Nat) (rest : List Char) : hole? (hole i ++ rest) = some i := by
  have hdigits : (Nat.toDigits 10 i ++ ['\x7d'] ++ rest).takeWhile Char.isDigit =
      Nat.toDigits 10 i := by
    rw [List.append_assoc, List.takeWhile_append_of_pos fun c hc =>
      Nat.isDigit_of_mem_toDigits (by decide) (by decide) hc]
    exact List.append_nil _
  have hbegins : (hole i).isPrefixOf (hole i ++ rest) = true :=
    List.isPrefixOf_iff_prefix.mpr (List.prefix_append _ _)
  rw [hole, List.cons_append] at hbegins ⊢
  rw [hole?, hdigits, Nat.ofDigitChars_ten_toDigits]
  exact if_pos hbegins

theorem hole?_eq_some {text : List Char} {i : Nat} : hole? text = some i ↔ hole i <+: text := by
  constructor
  · intro hsome
    cases text with
    | nil => exact absurd hsome nofun
    | cons c rest =>
      obtain ⟨hbegins, hi⟩ := Option.ite_none_right_eq_some.mp hsome
      rw [← Option.some.inj hi]
      exact List.isPrefixOf_iff_prefix.mp hbegins
  · rintro ⟨rest, rfl⟩
    exact hole?_hole_append i rest

/-- Where no hole begins, the hole with a given number does not. -/
theorem isPrefixOf_of_hole?_eq_none {text : List Char} (hnone : hole? text = none) (i : Nat) :
    (hole i).isPrefixOf text = false := by
  rw [← Bool.not_eq_true, List.isPrefixOf_iff_prefix, ← hole?_eq_some, hnone]
  exact nofun

/-- A hole begins with a brace and has no other that opens. -/
theorem notMem_hole_tail (i : Nat) : '\x7b' ∉ Nat.toDigits 10 i ++ ['\x7d'] := by
  intro hmem
  rcases List.mem_append.mp hmem with hdigit | hend
  · exact absurd (Nat.isDigit_of_mem_toDigits (by decide) (by decide) hdigit) (by decide)
  · exact absurd (List.mem_singleton.mp hend) (by decide)

/-- Holes with different numbers have no occurrence of each other. -/
theorem occurrences_hole_append_of_ne {i k : Nat} (hne : i ≠ k) (rest : List Char) :
    occurrences (hole k) (hole i ++ rest) = occurrences (hole k) rest := by
  have hnone : (hole k).isPrefixOf (hole i ++ rest) = false := by
    rw [← Bool.not_eq_true, List.isPrefixOf_iff_prefix, ← hole?_eq_some, hole?_hole_append]
    exact fun hsome => hne (Option.some.inj hsome)
  rw [hole, hole, List.cons_append] at hnone ⊢
  rw [occurrences_cons, hnone, occurrences_append_of_notMem (notMem_hole_tail i)]
  rfl

/-! ## Parts of a template -/

/-- A part of a template. -/
inductive Part where
  | char (c : Char)
  | hole (i : Nat)
  deriving DecidableEq, Repr

/-- The parts of a text; the count is of the characters of a hole still to be
passed over. -/
def partsFrom : Nat → List Char → List Part
  | _, [] => []
  | n + 1, _ :: rest => partsFrom n rest
  | 0, c :: rest =>
    match hole? (c :: rest) with
    | some i => .hole i :: partsFrom ((hole i).length - 1) rest
    | none => .char c :: partsFrom 0 rest

/-- The parts of a template. -/
def parts (template : List Char) : List Part := partsFrom 0 template

/-- What a part becomes: a hole becomes the argument with its number, and
stays as it is if there is none. -/
def Part.text (arguments : List String) : Part → List Char
  | char c => [c]
  | hole i => arguments[i]?.elim (Message.hole i) String.toList

/-- A template with all its holes filled at once. -/
def filled (template : String) (arguments : List String) : String :=
  String.ofList ((parts template.toList).flatMap (Part.text arguments))

theorem partsFrom_length_append (passed rest : List Char) :
    partsFrom passed.length (passed ++ rest) = partsFrom 0 rest := by
  induction passed with
  | nil => rfl
  | cons c passed ih => exact ih

theorem parts_hole_append (i : Nat) (rest : List Char) :
    parts (hole i ++ rest) = .hole i :: parts rest := by
  have hhole := hole?_hole_append i rest
  rw [hole, List.cons_append] at hhole ⊢
  rw [parts, partsFrom, hhole, parts]
  exact congrArg (Part.hole i :: ·) (partsFrom_length_append _ rest)

theorem parts_cons {c : Char} {rest : List Char} (hnone : hole? (c :: rest) = none) :
    parts (c :: rest) = .char c :: parts rest := by
  rw [parts, partsFrom, hnone]
  rfl

/-- A template is empty, or has a hole in front, or a character that no hole
begins at. -/
@[elab_as_elim]
theorem parts_induction {motive : List Char → Prop} (nil : motive [])
    (hole : ∀ i rest, motive rest → motive (hole i ++ rest))
    (char : ∀ c rest, hole? (c :: rest) = none → motive rest → motive (c :: rest))
    (text : List Char) : motive text := by
  refine front_induction (fun text => (hole? text).map Message.hole)
    (fun text front hfound => ?_) nil (fun front rest hfound => ?_) (fun c rest hnone => ?_) text
  · obtain ⟨i, hi, rfl⟩ := Option.map_eq_some_iff.mp hfound
    exact ⟨List.cons_ne_nil _ _, hole?_eq_some.mp hi⟩
  · obtain ⟨i, -, rfl⟩ := Option.map_eq_some_iff.mp hfound
    exact hole i rest
  · exact char c rest (Option.map_eq_none_iff.mp hnone)

/-- Without arguments nothing is filled. -/
theorem flatMap_text_nil (text : List Char) : (parts text).flatMap (Part.text []) = text := by
  induction text using parts_induction with
  | nil => rfl
  | hole i rest ih => rw [parts_hole_append, List.flatMap_cons, ih]; rfl
  | char c rest hnone ih => rw [parts_cons hnone, List.flatMap_cons, ih]; rfl

/-- A hole stands in a template as often as it is a part of it. -/
theorem occurrences_hole (k : Nat) (text : List Char) :
    occurrences (hole k) text = (parts text).count (.hole k) := by
  induction text using parts_induction with
  | nil => rfl
  | hole i rest ih =>
    rw [parts_hole_append]
    by_cases hik : i = k
    · subst hik
      rw [List.count_cons_self, hole, occurrences_pattern_append (notMem_hole_tail i), ← hole, ih]
    · rw [List.count_cons_of_ne fun h => hik (Part.hole.inj h), occurrences_hole_append_of_ne hik,
        ih]
  | char c rest hnone ih =>
    have hchar : Part.char c ≠ .hole k := nofun
    rw [parts_cons hnone, List.count_cons_of_ne hchar, occurrences_cons,
      isPrefixOf_of_hole?_eq_none hnone, ih]
    rfl

/-! ## One argument more -/

/-- What a part has become when the next argument is to be filled in: its hole
is the place that is left open. -/
def Part.marks (arguments : List String) (part : Part) : List (Option Char) :=
  if part = .hole arguments.length then [none] else (part.text arguments).map some

variable {arguments : List String} {argument : String}

/-- The text of a part that is not the next hole does not depend on the next
argument. -/
theorem Part.text_concat {part : Part} (hpart : part ≠ .hole arguments.length) :
    part.text (arguments ++ [argument]) = part.text arguments := by
  cases part with
  | char c => rfl
  | hole i =>
    have hi : i ≠ arguments.length := fun h => hpart (congrArg Part.hole h)
    rw [Part.text, Part.text, List.getElem?_append]
    split
    · rfl
    · rw [List.getElem?_eq_none (by rw [List.length_singleton]; omega),
        List.getElem?_eq_none (by omega)]

/-- Before the next argument is filled in, its holes are still there. -/
theorem spread_marks (template : List Part) :
    spread (hole arguments.length) (template.flatMap (Part.marks arguments)) =
      template.flatMap (Part.text arguments) := by
  induction template with
  | nil => rfl
  | cons part template ih =>
    rw [List.flatMap_cons, List.flatMap_cons, spread_append, ih, Part.marks]
    split
    · next hpart =>
      rw [hpart, Part.text, List.getElem?_eq_none (Nat.le_refl _), spread_singleton_none]
      rfl
    · rw [spread_map_some]

/-- After it the argument stands in their place. -/
theorem spread_marks_argument (template : List Part) :
    spread argument.toList (template.flatMap (Part.marks arguments)) =
      template.flatMap (Part.text (arguments ++ [argument])) := by
  induction template with
  | nil => rfl
  | cons part template ih =>
    rw [List.flatMap_cons, List.flatMap_cons, spread_append, ih, Part.marks]
    split
    · next hpart =>
      rw [hpart, Part.text, List.getElem?_concat_length, spread_singleton_none]
      rfl
    · next hpart => rw [spread_map_some, Part.text_concat hpart]

theorem count_marks (template : List Part) :
    (template.flatMap (Part.marks arguments)).count none =
      template.count (.hole arguments.length) := by
  induction template with
  | nil => rfl
  | cons part template ih =>
    rw [List.flatMap_cons, List.count_append, ih, Part.marks]
    split
    · next hpart => rw [hpart, List.count_cons_self, List.count_cons_self, List.count_nil,
      Nat.zero_add, Nat.add_comm]
    · next hpart =>
      have hnone : none ∉ (part.text arguments).map some := by
        simp only [List.mem_map, reduceCtorEq, and_false, exists_false, not_false_eq_true]
      rw [List.count_cons_of_ne hpart, List.count_eq_zero_of_not_mem hnone, Nat.zero_add]

theorem fillFrom_concat (i : Nat) (arguments : List String) (argument : String)
    (text : List Char) :
    fillFrom i (arguments ++ [argument]) text =
      replaceFrom (hole (i + arguments.length)) argument.toList 0 (fillFrom i arguments text) := by
  induction arguments generalizing i text with
  | nil => rfl
  | cons first arguments ih =>
    rw [List.cons_append, fillFrom, ih, fillFrom, List.length_cons, Nat.add_assoc,
      Nat.add_comm 1]

/-- **One argument more.** A template that is filled so far is filled with the
next argument too exactly if the argument finds the holes of the template and
no other, or is the hole itself. -/
theorem format_concat_iff {template : String}
    (hfilled : format template arguments = filled template arguments) :
    format template (arguments ++ [argument]) = filled template (arguments ++ [argument]) ↔
      argument.toList = hole arguments.length ∨
        occurrences (hole arguments.length) (filled template arguments).toList =
          occurrences (hole arguments.length) template.toList := by
  have htext := String.ofList_inj.mp hfilled
  rw [format, filled, String.ofList_inj, fillFrom_concat, Nat.zero_add, htext, filled,
    String.toList_ofList, occurrences_hole _ template.toList, ← spread_marks,
    ← spread_marks_argument, ← count_marks]
  exact replaceFrom_spread_iff (notMem_hole_tail _)

/-- Without arguments the template is what it is. -/
theorem format_nil (template : String) : format template [] = filled template [] := by
  rw [format, filled, flatMap_text_nil]
  rfl

/-- **One argument alone** is put in as it is. -/
theorem format_singleton (template argument : String) :
    format template [argument] = filled template [argument] := by
  refine (format_concat_iff (format_nil template)).mpr (.inr ?_)
  rw [← format_nil]
  exact congrArg _ String.toList_ofList

/-- What a report of a read error is to say, or any part of it. -/
theorem filled_readError (arguments : List String) :
    (filled readError.template arguments).toList =
      "error reading ".toList ++ ((Part.hole 0).text arguments ++
        ':' :: ' ' :: (Part.hole 1).text arguments) := by
  have hparts : parts readError.template.toList =
      "error reading ".toList.map .char ++ .hole 0 :: ([.char ':', .char ' ', .hole 1]) := by
    decide +kernel
  rw [filled, hparts, String.toList_ofList]
  simp [Part.text]

/-- **A read error is told as it is**, the file and what went wrong, exactly if
the file is not called by anything with the second hole in it, or what went
wrong is that hole. -/
theorem text_readError_iff (file : Option String) (fault : Fault) :
    (Cause.readError file fault).text =
        "error reading " ++ Cause.sourceLabel file ++ ": " ++ fault.message ↔
      fault.message.toList = hole 1 ∨
        occurrences (hole 1) (Cause.sourceLabel file).toList = 0 := by
  generalize hlabel : Cause.sourceLabel file = label
  have htext : (Cause.readError file fault).text =
      format readError.template ([label] ++ [fault.message]) := hlabel ▸ rfl
  have htold : "error reading " ++ label ++ ": " ++ fault.message =
      filled readError.template ([label] ++ [fault.message]) := by
    rw [← String.toList_inj, filled_readError]
    simp [Part.text]
  have hcount (front : List Char) :
      occurrences (hole 1) ("error reading ".toList ++ (front ++ ':' :: ' ' :: hole 1)) =
        occurrences (hole 1) front + 1 := by
    have hend : occurrences (hole 1) (' ' :: hole 1) = 1 := by decide +kernel
    rw [hole, occurrences_append_of_notMem (by decide), occurrences_append_separator (by decide),
      ← hole, hend]
  have hbefore : (filled readError.template [label]).toList =
      "error reading ".toList ++ (label.toList ++ ':' :: ' ' :: hole 1) := filled_readError [label]
  have htemplate : readError.template.toList =
      "error reading ".toList ++ (hole 0 ++ ':' :: ' ' :: hole 1) := by decide +kernel
  have hnone : occurrences (hole 1) (hole 0) = 0 := by decide +kernel
  rw [htext, htold, format_concat_iff (format_singleton _ _)]
  refine or_congr_right ?_
  have hlength : [label].length = 1 := rfl
  rw [hlength, hbefore, htemplate, hcount, hcount, hnone]
  omega

/-! ## All arguments -/

/-- **A template is filled** where every argument that is not its own hole finds
the hole with its number as often as the template has it. -/
theorem format_eq_filled {template : String} (hholes : ∀ i argument,
    arguments[i]? = some argument →
      argument.toList = hole i ∨
        occurrences (hole i) (filled template (arguments.take i)).toList =
          occurrences (hole i) template.toList) :
    format template arguments = filled template arguments := by
  induction arguments using List.reverseRecOn with
  | nil => exact format_nil template
  | append_singleton arguments last ih =>
    have hlast := hholes arguments.length last (by simp)
    rw [List.take_left] at hlast
    refine (format_concat_iff (ih fun i argument hargument => ?_)).mpr hlast
    have hi := (List.getElem?_eq_some_iff.mp hargument).1
    have hearlier := hholes i argument (by rw [List.getElem?_append_left hi, hargument])
    rwa [List.take_append_of_le_length hi.le] at hearlier

/-- **What formatting comes to.** Up to any of the arguments the template is
filled, each hole with its argument and nothing else touched, exactly if every
argument that is not its own hole finds the hole with its number as often as
the template has it. So what an argument says is put in as it is, unless what
earlier ones say has made a hole for a later one. -/
theorem format_eq_filled_iff (template : String) (arguments : List String) :
    (∀ n, format template (arguments.take n) = filled template (arguments.take n)) ↔
      ∀ i argument, arguments[i]? = some argument →
        argument.toList = hole i ∨
          occurrences (hole i) (filled template (arguments.take i)).toList =
            occurrences (hole i) template.toList := by
  constructor
  · intro hall i argument hargument
    obtain ⟨hi, rfl⟩ := List.getElem?_eq_some_iff.mp hargument
    have hnext := hall (i + 1)
    rw [List.take_succ_eq_append_getElem hi] at hnext
    have hstep := (format_concat_iff (hall i)).mp hnext
    rwa [List.length_take_of_le hi.le] at hstep
  · intro hholes n
    refine format_eq_filled fun i argument hargument => ?_
    rw [List.getElem?_take] at hargument
    obtain ⟨hi, hargument⟩ := Option.ite_none_right_eq_some.mp hargument
    rw [List.take_take, Nat.min_eq_left (Nat.le_of_lt hi)]
    exact hholes i argument hargument

/-- A read error names the file, and a file that is called by a hole is filled
with what went wrong. -/
theorem format_file_called_hole :
    format readError.template ["'\x7b1\x7d'", "boom"] = "error reading 'boom': boom" ∧
      filled readError.template ["'\x7b1\x7d'", "boom"] =
        "error reading '\x7b1\x7d': boom" := by
  decide +kernel

end Message

end BasicLexer
