import BasicLexer.Options.Config
import BasicLexer.Proofs.Json.Values

/-!
# Options — configurations as they are written

A configuration of some options is one object with a member for each of those
that are given, wherever in it, and any members of other names with any values
(`Options.Configures`). Keys and strings may be escaped in any way, and there
may be blanks wherever JSON has them. However that is done, what is read is the
options given, with the defaults for the others
(`Options.ofText?_of_configures`).
-/

namespace BasicLexer

namespace Options

/-! ## Configurations -/

/-- The options that a configuration may give. -/
inductive Field where
  | maxToken | maxLine | includePaths | literalOverflow
  deriving DecidableEq, Repr

/-- The name that an option goes by. -/
def Field.name : Field → String
  | maxToken => "maxToken"
  | maxLine => "maxLine"
  | includePaths => "includePaths"
  | literalOverflow => "literalOverflow"

/-- How the value of an option is written: a limit by its digits, directories
as an array of strings, and a policy as a string. -/
inductive Writes (o : Options) : Field → List Char → Prop
  | maxToken : Writes o .maxToken (Nat.toDigits 10 o.maxToken)
  | maxLine : Writes o .maxLine (Nat.toDigits 10 o.maxLine)
  | includePaths {items : List Json.Item} {written : List Char}
      (hspaced : ∀ item ∈ items, item.Spaced)
      (hitems : List.Forall₂
        (fun directory item =>
          ∃ inside, item.value = Json.quoted inside ∧ Json.WritesText directory.toList inside)
        o.includePaths items)
      (hwritten : Json.Encloses '[' ']' (items.map Json.Item.text) written) :
      Writes o .includePaths written
  | literalOverflow {inside : List Char}
      (hinside : Json.WritesText o.literalOverflow.name.toList inside) :
      Writes o .literalOverflow (Json.quoted inside)

/-- Members that give some of the options, in this order, and between them
members of other names, whatever their values. -/
inductive Fills (o : Options) : List Field → List Json.Member → Prop
  | nil : Fills o [] []
  | option {field : Field} {given : List Field} {m : Json.Member} {members : List Json.Member}
      (hname : Json.WritesText field.name.toList m.name) (hvalue : Writes o field m.value)
      (hrest : Fills o given members) : Fills o (field :: given) (m :: members)
  | other {name : String} {given : List Field} {m : Json.Member} {members : List Json.Member}
      (hname : Json.WritesText name.toList m.name) (hnone : ∀ field : Field, name ≠ field.name)
      (hvalue : Json.WellFormed m.value) (hrest : Fills o given members) :
      Fills o given (m :: members)

/-- A text that is one object which gives some of the options. -/
inductive Configures (o : Options) (given : List Field) : List Char → Prop
  | object {members : List Json.Member} {lead written trail : List Char}
      (hlead : Json.Blank lead) (htrail : Json.Blank trail)
      (hspaced : ∀ m ∈ members, m.Spaced) (hmembers : Fills o given members)
      (hwritten : Json.Encloses '\x7b' '\x7d' (members.map Json.Member.text) written) :
      Configures o given (lead ++ (written ++ trail))

/-- The options of which only some are given. -/
def only (o : Options) (given : List Field) : Options where
  maxToken := if .maxToken ∈ given then o.maxToken else ({} : Options).maxToken
  maxLine := if .maxLine ∈ given then o.maxLine else ({} : Options).maxLine
  includePaths := if .includePaths ∈ given then o.includePaths else ({} : Options).includePaths
  literalOverflow :=
    if .literalOverflow ∈ given then o.literalOverflow else ({} : Options).literalOverflow
  maxToken_lt := by
    split
    · exact o.maxToken_lt
    · exact ({} : Options).maxToken_lt
  maxLine_lt := by
    split
    · exact o.maxLine_lt
    · exact ({} : Options).maxLine_lt

theorem only_all {o : Options} {given : List Field} (hall : ∀ field, field ∈ given) :
    o.only given = o := by
  simp only [only, hall, if_true]

/-! ## Limits -/

theorem head_toDigits {n : Nat} (hn : n ≠ 0) :
    ∃ d rest, Nat.toDigits 10 n = d :: rest ∧ d ≠ '0' := by
  have hdigit : ∀ d : Fin 10, d.val ≠ 0 → d.val.digitChar ≠ '0' := by decide
  induction n using Nat.strongRecOn with
  | ind n ih =>
    rw [Nat.toDigits_eq_if (by decide)]
    split
    · next hlt => exact ⟨_, [], rfl, hdigit ⟨n, hlt⟩ hn⟩
    · next hge =>
      have hless : n / 10 < n := Nat.div_lt_self (by omega) (by decide)
      obtain ⟨d, rest, hfirst, hd⟩ := ih (n / 10) hless (by omega)
      exact ⟨d, rest ++ [(n % 10).digitChar], by rw [hfirst, List.cons_append], hd⟩

/-- The digits of a number are such as JSON writes. -/
theorem writesWhole_toDigits (n : Nat) : Json.WritesWhole (Nat.toDigits 10 n) := by
  by_cases hn : n = 0
  · exact hn ▸ .zero
  · obtain ⟨d, rest, hdigits, hd⟩ := head_toDigits hn
    rw [hdigits]
    refine .positive hd ⟨List.cons_ne_nil _ _, fun c hc => ?_⟩
    exact Nat.isDigit_of_mem_toDigits (by decide) (by decide) (hdigits ▸ hc)

theorem natural_toDigits (n : Nat) : natural (Nat.toDigits 10 n) = n := by
  have hsame : natural (Nat.toDigits 10 n) = Nat.ofDigitChars 10 (Nat.toDigits 10 n) 0 := by
    rw [natural, Nat.ofDigitChars_eq_foldl]
    simp only [Nat.mul_comm]
    rfl
  rw [hsame, Nat.ofDigitChars_ten_toDigits]

/-- A limit is read from its digits. -/
theorem exists_limit {n : Nat} (hn : n < UInt64.size) :
    ∃ value, Json.Gives (Nat.toDigits 10 n) value ∧ limit? value = some ⟨n, hn⟩ := by
  let number : Json.Number := ⟨false, Nat.toDigits 10 n, [], none, []⟩
  have hwrites : Json.WritesNumber number (Nat.toDigits 10 n) :=
    .unsigned rfl ⟨[], [], writesWhole_toDigits n, .none, .none, (List.append_nil _).symm⟩
  refine ⟨_, Json.gives_number hwrites, ?_⟩
  have hless : natural number.whole < UInt64.size := (natural_toDigits n).symm ▸ hn
  rw [limit?, if_neg (by rintro (h | h | h) <;> exact absurd h nofun), dif_pos hless]
  exact congrArg some (Fin.ext (natural_toDigits n))

/-! ## Texts -/

/-- A string is read with the text that is written in it. -/
theorem exists_text {text : String} {inside : List Char}
    (htext : Json.WritesText text.toList inside) :
    ∃ pieces, Json.WritesPieces pieces inside ∧ Json.text? pieces = some text := by
  obtain ⟨pieces, hpieces, hdecode⟩ := htext.exists_pieces
  refine ⟨pieces, hpieces, ?_⟩
  rw [Json.text?, hdecode, Option.map_some, String.ofList_toList]

theorem ofName?_name (p : Overflow) : Overflow.ofName? p.name = some p := by
  cases p <;> decide

/-- What a value is to be, for an option to be what it is. -/
def Stands (o : Options) (value : Json) : Field → Prop
  | .maxToken => limit? value = some ⟨o.maxToken, o.maxToken_lt⟩
  | .maxLine => limit? value = some ⟨o.maxLine, o.maxLine_lt⟩
  | .includePaths => directories? value = some o.includePaths
  | .literalOverflow => overflow? value = some o.literalOverflow

variable {o : Options} {field : Field} {given : List Field}

theorem exists_directories {directories : List String} {items : List Json.Item}
    (hitems : List.Forall₂
      (fun directory item =>
        ∃ inside, item.value = Json.quoted inside ∧ Json.WritesText directory.toList inside)
      directories items) :
    ∃ values, List.Forall₂ (fun item value => Json.Gives item.value value) items values ∧
      values.mapM directory? = some directories := by
  induction hitems with
  | nil => exact ⟨[], .nil, rfl⟩
  | cons hitem _ ih =>
    obtain ⟨inside, hvalue, htext⟩ := hitem
    obtain ⟨pieces, hpieces, hread⟩ := exists_text htext
    obtain ⟨values, hvalues, hmore⟩ := ih
    refine ⟨.string pieces :: values, .cons (hvalue ▸ Json.gives_string hpieces) hvalues, ?_⟩
    rw [List.mapM_cons, directory?, hread, hmore]
    rfl

/-- **The value of an option is read** as it is written. -/
theorem Writes.exists_value {written : List Char} (hwrites : Writes o field written) :
    ∃ value, Json.Gives written value ∧ o.Stands value field := by
  cases hwrites with
  | maxToken => exact exists_limit o.maxToken_lt
  | maxLine => exact exists_limit o.maxLine_lt
  | includePaths hspaced hitems hwritten =>
    obtain ⟨values, hvalues, hread⟩ := exists_directories hitems
    exact ⟨.array values, Json.gives_array hspaced hvalues hwritten, hread⟩
  | literalOverflow hinside =>
    obtain ⟨pieces, hpieces, hread⟩ := exists_text hinside
    refine ⟨.string pieces, Json.gives_string hpieces, ?_⟩
    rw [Stands, overflow?, hread, Option.bind_some, ofName?_name]

/-! ## Members -/

/-- What a configuration says that gives some of the options. -/
def Given.of (o : Options) (given : List Field) : Given where
  maxToken := if .maxToken ∈ given then some ⟨o.maxToken, o.maxToken_lt⟩ else none
  maxLine := if .maxLine ∈ given then some ⟨o.maxLine, o.maxLine_lt⟩ else none
  includePaths := if .includePaths ∈ given then some o.includePaths else none
  literalOverflow := if .literalOverflow ∈ given then some o.literalOverflow else none

theorem ofGiven_of (o : Options) (given : List Field) : ofGiven (.of o given) = o.only given := by
  have hgetD {α : Type} (p : Prop) [Decidable p] (a b : α) :
      (if p then some a else none).getD b = if p then a else b := by split <;> rfl
  simp only [ofGiven, Given.of, only, hgetD, apply_ite Fin.val]
  rfl

/-- A member of an option's name gives that option, if it was not given
before. -/
theorem addMember_option {key : List Json.Piece} {value : Json}
    (hkey : Json.text? key = some field.name) (hvalue : o.Stands value field)
    (hnew : field ∉ given) :
    addMember (.of o given) (key, value) = some (.of o (given ++ [field])) := by
  rw [addMember, hkey]
  cases field <;> rw [Stands] at hvalue <;>
    simp [Field.name, Given.of, once, hnew, hvalue]

/-- A member of another name says nothing. -/
theorem addMember_other {key : List Json.Piece} {value : Json} {name : String} {before : Given}
    (hkey : Json.text? key = some name) (hnone : ∀ field : Field, name ≠ field.name) :
    addMember before (key, value) = some before := by
  have htoken : name ≠ "maxToken" := hnone .maxToken
  have hline : name ≠ "maxLine" := hnone .maxLine
  have hpaths : name ≠ "includePaths" := hnone .includePaths
  have hoverflow : name ≠ "literalOverflow" := hnone .literalOverflow
  rw [addMember, hkey, Option.bind_eq_bind, Option.bind_some, if_neg htoken, if_neg hline,
    if_neg hpaths, if_neg hoverflow]
  rfl

/-- **The loop over the members**: each option that is given is entered, and
members of other names are passed over. -/
theorem Fills.exists_held {members : List Json.Member} (hfills : Fills o given members) :
    ∃ held : List (List Json.Piece × Json),
      List.Forall₂ (fun m item => Json.WritesPieces item.1 m.name ∧ Json.Gives m.value item.2)
        members held ∧
      ∀ before, (before ++ given).Nodup →
        held.foldlM addMember (.of o before) = some (.of o (before ++ given)) := by
  induction hfills with
  | nil => exact ⟨[], .nil, fun before _ => by rw [List.append_nil]; rfl⟩
  | @option field given m members hname hvalue hrest ih =>
    obtain ⟨key, hkey, htext⟩ := exists_text hname
    obtain ⟨value, hgives, hstands⟩ := hvalue.exists_value
    obtain ⟨held, hheld, hfold⟩ := ih
    refine ⟨(key, value) :: held, .cons ⟨hkey, hgives⟩ hheld, fun before hnodup => ?_⟩
    have hnew : field ∉ before := fun hmem =>
      (List.nodup_append.mp hnodup).2.2 field hmem field List.mem_cons_self rfl
    rw [List.append_cons] at hnodup
    rw [List.foldlM_cons, addMember_option htext hstands hnew, Option.bind_eq_bind,
      Option.bind_some, hfold _ hnodup, ← List.append_cons]
  | @other name given m members hname hnone hvalue hrest ih =>
    obtain ⟨key, hkey, htext⟩ := exists_text hname
    obtain ⟨value, hgives⟩ := hvalue.exists_gives
    obtain ⟨held, hheld, hfold⟩ := ih
    refine ⟨(key, value) :: held, .cons ⟨hkey, hgives⟩ hheld, fun before hnodup => ?_⟩
    rw [List.foldlM_cons, addMember_other htext hnone, Option.bind_eq_bind, Option.bind_some,
      hfold _ hnodup]

/-- A configuration stands for the options it gives. -/
theorem Configures.ofText?_ofList (hgiven : given.Nodup) {text : List Char}
    (htext : Configures o given text) :
    ofText? (String.ofList text) = some (o.only given) := by
  cases htext with
  | object hlead htrail hspaced hmembers hwritten =>
    obtain ⟨held, hheld, hfold⟩ := hmembers.exists_held
    have hread := Json.ofText?_of_gives (Json.gives_object hspaced hheld hwritten) hlead htrail
    have hnone : ({} : Given) = .of o [] := rfl
    rw [ofText?, hread, Option.bind_some, ofJson?, hnone, hfold [] hgiven, List.nil_append,
      Option.map_some, ofGiven_of]

/-- **Options survive their JSON form.** Whatever options are written in a
configuration, each in a member of its own and in any order, with any blanks,
any escapes and any members of other names between them: what is read are the
options given, and the defaults of those that are not. If all are given, what is
read are the options that were written. -/
theorem ofText?_of_configures {text : String} (hgiven : given.Nodup)
    (htext : Configures o given text.toList) :
    ofText? text = some (o.only given) ∧
      ((∀ field, field ∈ given) → ofText? text = some o) := by
  have hread := htext.ofText?_ofList hgiven
  rw [String.ofList_toList] at hread
  exact ⟨hread, fun hall => hread.trans (congrArg some (only_all hall))⟩

/-! ## An escaped configuration -/

/-- A key with an escaped letter, a path with a pair of units, a member of
another name that holds others, and the largest limit there is. -/
def escapedConfiguration : String :=
  "\x7b\"include\\u0050aths\":[\"a\\/b\",\"\\ud83d\\uDE00\"], \"x\":[null,\x7b\x7d],\n" ++
    "\"maxToken\":18446744073709551615\x7d"

/-- What it gives. -/
def escapedOptions : Options :=
  { maxToken := 18446744073709551615, includePaths := ["a/b", "😀"] }

/-- An array as it is written. -/
def writtenArray (items : List Json.Item) : List Char :=
  '[' :: ([','].intercalate (items.map Json.Item.text) ++ [']'])

def escapedPaths : List Json.Item :=
  [⟨[], Json.quoted "a\\/b".toList, []⟩, ⟨[], Json.quoted "\\ud83d\\uDE00".toList, []⟩]

def nestedItems : List Json.Item := [⟨[], "null".toList, []⟩, ⟨[], ['\x7b', '\x7d'], []⟩]

def escapedMembers : List Json.Member :=
  [⟨[], "include\\u0050aths".toList, [], [], writtenArray escapedPaths, []⟩,
   ⟨[' '], "x".toList, [], [], writtenArray nestedItems, []⟩,
   ⟨['\n'], "maxToken".toList, [], [], Nat.toDigits 10 18446744073709551615, []⟩]

theorem ofText?_escapedConfiguration :
    ofText? escapedConfiguration = some escapedOptions := by
  have hkey : Json.WritesText "includePaths".toList "include\\u0050aths".toList := by
    have hletter : Json.WritesChar 'P' "\\u0050".toList :=
      .unit (@Json.WritesUnit.digits 0 0 5 0 _ _ _ _ (by decide) (by decide) (by decide)
        (by decide))
    exact (@Json.WritesText.of_plain "include".toList (by decide)).append
      (.cons hletter (@Json.WritesText.of_plain "aths".toList (by decide)))
  have hslash : Json.WritesText "a/b".toList "a\\/b".toList :=
    (@Json.WritesText.of_plain ['a'] (by decide)).append (.cons (.piece (.short (by decide)))
      (@Json.WritesText.of_plain ['b'] (by decide)))
  have hface : Json.WritesText "😀".toList "\\ud83d\\uDE00".toList := by
    have hhigh : Json.WritesUnit (0xd800 + 0x3d) "d83d".toList :=
      @Json.WritesUnit.digits 13 8 3 13 _ _ _ _ (by decide) (by decide) (by decide) (by decide)
    have hlow : Json.WritesUnit (0xdc00 + 0x200) "DE00".toList :=
      @Json.WritesUnit.digits 13 14 0 0 _ _ _ _ (by decide) (by decide) (by decide) (by decide)
    exact .cons (.pair (by decide) (by decide) (by decide) hhigh hlow) .nil
  have hpaths : Writes escapedOptions .includePaths (writtenArray escapedPaths) :=
    @Writes.includePaths escapedOptions escapedPaths _ (by decide)
      (.cons ⟨_, rfl, hslash⟩ (.cons ⟨_, rfl, hface⟩ .nil)) .parts
  have hother : Json.WellFormed (writtenArray nestedItems) := by
    refine @Json.WellFormed.array nestedItems _ (by decide) ?_ .parts
    have hempty : Json.WellFormed ['\x7b', '\x7d'] :=
      @Json.WellFormed.object [] _ nofun nofun nofun (@Json.Encloses.empty _ _ [] nofun)
    exact List.forall_mem_cons.mpr ⟨.null, List.forall_mem_singleton.mpr hempty⟩
  have hfills : Fills escapedOptions [.includePaths, .maxToken] escapedMembers :=
    .option hkey hpaths (.other (@Json.WritesText.of_plain "x".toList (by decide))
      (fun field => by cases field <;> decide) hother
        (.option (@Json.WritesText.of_plain "maxToken".toList (by decide)) .maxToken .nil))
  have htext : escapedConfiguration.toList =
      [] ++ ('\x7b' :: ([','].intercalate (escapedMembers.map Json.Member.text) ++ ['\x7d']) ++
        []) := by
    decide +kernel
  have hconfigures : Configures escapedOptions [.includePaths, .maxToken]
      escapedConfiguration.toList := by
    rw [htext]
    exact .object nofun nofun (by decide) hfills .parts
  exact (ofText?_of_configures (by decide) hconfigures).1

end Options

end BasicLexer
