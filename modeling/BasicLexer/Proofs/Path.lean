import BasicLexer.Path
import Mathlib.Data.List.Forall2

/-!
# Paths — what is tried, and in which order

A path is tried with slashes only, so it is no matter which separators a name
and the directories are written with (`Path.candidates_of_respelled`). A rooted
name is tried alone; any other is tried as it is and then in each directory,
with a slash between the two unless the directory ends in a separator
(`Path.joined`). In the directory of a path, a name stands in place of what is
behind the path's last separator (`Path.joined_directory`).
-/

namespace BasicLexer

namespace Path

variable {path other name directory : String} {directories directories' : List String}

/-! ## Separators -/

/-- A character with a slash for a backslash. -/
def slashed (c : Char) : Char := if c = '\\' then '/' else c

theorem isSeparator_iff {c : Char} : isSeparator c = true ↔ c = '/' ∨ c = '\\' := by
  rw [isSeparator, Bool.or_eq_true, decide_eq_true_iff, decide_eq_true_iff]

/-- What is no separator stays. -/
theorem slashed_of_not_separator {c : Char} (hc : isSeparator c = false) : slashed c = c :=
  if_neg fun h => Bool.eq_false_iff.mp hc (isSeparator_iff.mpr (.inr h))

/-- A separator becomes a slash. -/
theorem slashed_of_separator {c : Char} (hc : isSeparator c = true) : slashed c = '/' := by
  rcases isSeparator_iff.mp hc with rfl | rfl <;> rfl

theorem isSeparator_slashed (c : Char) : isSeparator (slashed c) = isSeparator c := by
  cases hc : isSeparator c with
  | true => rw [slashed_of_separator hc]; rfl
  | false => rw [slashed_of_not_separator hc, hc]

theorem slashed_ne_backslash (c : Char) : slashed c ≠ '\\' := by
  rw [slashed]
  split
  · decide
  · assumption

theorem toList_normalize (path : String) : (normalize path).toList = path.toList.map slashed :=
  String.toList_ofList

theorem normalize_append (path other : String) :
    normalize (path ++ other) = normalize path ++ normalize other := by
  rw [← String.toList_inj, toList_normalize, String.toList_append, String.toList_append,
    toList_normalize, toList_normalize, List.map_append]

theorem backslash_notMem_normalize (path : String) : '\\' ∉ (normalize path).toList := by
  rw [toList_normalize]
  intro hmem
  obtain ⟨c, -, hc⟩ := List.mem_map.mp hmem
  exact slashed_ne_backslash c hc

/-- Slashes alone stay. -/
theorem normalize_of_notMem (hpath : '\\' ∉ path.toList) : normalize path = path := by
  have hstays : ∀ c ∈ path.toList, slashed c = id c := by
    intro c hc
    exact if_neg fun h : c = '\\' => hpath (h ▸ hc)
  rw [← String.toList_inj, toList_normalize, List.map_congr_left hstays, List.map_id]

theorem normalize_normalize (path : String) : normalize (normalize path) = normalize path :=
  normalize_of_notMem (backslash_notMem_normalize path)

theorem normalize_eq_empty_iff : normalize path = "" ↔ path = "" := by
  rw [← String.toList_inj, ← String.toList_inj, toList_normalize]
  exact List.map_eq_nil_iff

/-- Lists with like elements have the same image, if like elements do. -/
theorem map_eq_map_of_forall₂ {β γ : Type} {like : β → β → Prop} {f : β → γ} {l l' : List β}
    (h : List.Forall₂ like l l') (himage : ∀ x y, like x y → f x = f y) : l.map f = l'.map f := by
  induction h with
  | nil => rfl
  | cons hxy _ ih => rw [List.map_cons, List.map_cons, himage _ _ hxy, ih]

/-- Two ways to write one path: where they differ, both have a separator. -/
def Respelled (path other : String) : Prop :=
  List.Forall₂ (fun c d => c = d ∨ isSeparator c = true ∧ isSeparator d = true)
    path.toList other.toList

instance (path other : String) : Decidable (Respelled path other) :=
  inferInstanceAs (Decidable (List.Forall₂ _ _ _))

theorem Respelled.normalize_eq (h : Respelled path other) : normalize path = normalize other := by
  rw [← String.toList_inj, toList_normalize, toList_normalize]
  refine map_eq_map_of_forall₂ h fun c d hchar => ?_
  rcases hchar with rfl | ⟨hc, hd⟩
  · rfl
  · rw [slashed_of_separator hc, slashed_of_separator hd]

/-! ## Roots -/

/-- A path that starts at a root: with a separator, or with a letter, a colon
and a separator. -/
inductive Rooted : List Char → Prop
  | separator {c : Char} {rest : List Char} (hc : isSeparator c = true) : Rooted (c :: rest)
  | drive {c d : Char} {rest : List Char} (hc : c.isAlpha = true) (hd : isSeparator d = true) :
      Rooted (c :: ':' :: d :: rest)

theorem isRooted_iff : isRooted path = true ↔ Rooted path.toList := by
  rw [isRooted]
  constructor
  · intro h
    split at h
    · cases h
    · rename_i c rest hpath
      rw [hpath]
      rcases Bool.or_eq_true_iff.mp h with hc | hdrive
      · exact .separator hc
      · split at hdrive
        · rename_i d e more
          simp only [Bool.and_eq_true, decide_eq_true_eq] at hdrive
          obtain ⟨⟨hc, rfl⟩, he⟩ := hdrive
          exact .drive hc he
        · cases hdrive
  · intro h
    cases hpath : path.toList with
    | nil =>
      rw [hpath] at h
      cases h
    | cons c rest =>
      rw [hpath] at h
      cases h with
      | separator hc => simp only [hc, Bool.true_or]
      | drive hc hd => simp only [isDrive, hc, hd, decide_true, Bool.and_true, Bool.or_true]

/-- Nothing but a separator becomes a slash. -/
theorem slashed_eq_self {c : Char} (hc : slashed c ≠ '/') : slashed c = c := by
  cases hseparator : isSeparator c with
  | true => exact absurd (slashed_of_separator hseparator) hc
  | false => exact slashed_of_not_separator hseparator

theorem rooted_map_slashed (chars : List Char) : Rooted (chars.map slashed) ↔ Rooted chars := by
  constructor
  · intro h
    generalize hmap : chars.map slashed = slashes at h
    cases h with
    | separator hc =>
      obtain ⟨a, rest, rfl, rfl, -⟩ := List.map_eq_cons_iff.mp hmap
      exact .separator ((isSeparator_slashed a).symm.trans hc)
    | drive hc hd =>
      obtain ⟨a, tail, rfl, rfl, htail⟩ := List.map_eq_cons_iff.mp hmap
      obtain ⟨b, more, rfl, hcolon, hmore⟩ := List.map_eq_cons_iff.mp htail
      obtain ⟨e, rest, rfl, rfl, -⟩ := List.map_eq_cons_iff.mp hmore
      have ha : slashed a = a := slashed_eq_self fun h => by rw [h] at hc; cases hc
      have hb : slashed b = b := slashed_eq_self fun h => by rw [h] at hcolon; cases hcolon
      rw [ha] at hc
      rw [hb] at hcolon
      rw [hcolon]
      exact .drive hc ((isSeparator_slashed e).symm.trans hd)
  · intro h
    cases h with
    | separator hc => exact .separator ((isSeparator_slashed _).trans hc)
    | @drive c d rest hc hd =>
      have hletter : slashed c = c := if_neg fun h => by rw [h] at hc; cases hc
      refine .drive ?_ ((isSeparator_slashed d).trans hd)
      rw [hletter, hc]

/-- A path with slashes has a root where it had one. -/
theorem isRooted_normalize_iff : isRooted (normalize path) = true ↔ Rooted path.toList := by
  rw [isRooted_iff, toList_normalize, rooted_map_slashed]

/-! ## Names in directories -/

/-- A name in a directory, with slashes only. They are joined by a slash,
unless the directory ends in a separator. -/
def joined (directory name : String) : String :=
  normalize (if directory.toList.getLast?.any isSeparator then directory ++ name
    else directory ++ "/" ++ name)

/-- The end of a path is a separator where it was one. -/
theorem any_getLast?_normalize (path : String) :
    (normalize path).toList.getLast?.any isSeparator = path.toList.getLast?.any isSeparator := by
  rw [toList_normalize, List.getLast?_map, Option.any_map]
  exact congrArg (path.toList.getLast?.any ·) (funext isSeparator_slashed)

theorem closed_eq (hpath : path ≠ "") :
    closed path = if path.toList.getLast?.any isSeparator then path else path ++ "/" := by
  rw [closed]
  cases hlast : path.toList.getLast? with
  | none => exact absurd (String.toList_inj.mp (List.getLast?_eq_none_iff.mp hlast)) hpath
  | some c => rfl

/-- A name that is not rooted is taken in a directory. -/
theorem combine_normalize (hname : ¬ Rooted name.toList) (hdirectory : directory ≠ "") :
    combine (normalize directory) (normalize name) = joined directory name := by
  have hrooted : isRooted (normalize name) = false :=
    Bool.eq_false_iff.mpr fun h => hname (isRooted_normalize_iff.mp h)
  have hsome : normalize directory ≠ "" := fun h => hdirectory (normalize_eq_empty_iff.mp h)
  have hempty : (normalize directory).isEmpty = false :=
    Bool.eq_false_iff.mpr fun h => hsome (String.isEmpty_iff.mp h)
  rw [combine, hrooted, hempty, Bool.or_false, if_neg Bool.false_ne_true, closed_eq hsome,
    any_getLast?_normalize, joined]
  split
  · rw [normalize_append]
  · rw [normalize_append, normalize_append]
    rfl

/-- A name in each of the directories that are not empty, in order. -/
def searchedIn (directories : List String) (name : String) : List String :=
  (directories.filter (· ≠ "")).map fun d => joined d name

theorem searchedIn_append (directories directories' : List String) (name : String) :
    searchedIn (directories ++ directories') name =
      searchedIn directories name ++ searchedIn directories' name := by
  rw [searchedIn, List.filter_append, List.map_append, searchedIn, searchedIn]

theorem searchedIn_singleton (hdirectory : directory ≠ "") (name : String) :
    searchedIn [directory] name = [joined directory name] := by
  have hkept : decide (directory ≠ "") = true := decide_eq_true hdirectory
  simp only [searchedIn, List.filter_cons, hkept, if_true, List.filter_nil, List.map_cons,
    List.map_nil]

/-! ## Candidates -/

theorem candidates_of_rooted (hname : Rooted name.toList) (directories : List String) :
    candidates name directories = [normalize name] :=
  if_pos (isRooted_normalize_iff.mpr hname)

/-- **A name that is not rooted** is tried as it is and then in each
directory. -/
theorem candidates_of_not_rooted (hname : ¬ Rooted name.toList) (directories : List String) :
    candidates name directories = normalize name :: searchedIn directories name := by
  rw [candidates, if_neg fun h => hname (isRooted_normalize_iff.mp h)]
  have hfilter : (directories.filter fun d => !d.isEmpty) = directories.filter (· ≠ "") := by
    refine List.filter_congr fun d _ => ?_
    rw [Bool.eq_iff_iff, decide_eq_true_iff, Bool.not_eq_true', Bool.eq_false_iff, ne_eq, ne_eq,
      String.isEmpty_iff]
  rw [hfilter, searchedIn]
  congr 1
  refine List.map_congr_left fun d hd => combine_normalize hname ?_
  exact of_decide_eq_true (List.mem_filter.mp hd).2

example : candidates "lib\\io" ["", "inc", "inc\\"] = ["lib/io", "inc/lib/io", "inc/lib/io"] := by
  decide

/-- **Nothing is tried with a backslash.** -/
theorem backslash_notMem_of_mem_candidates (hpath : path ∈ candidates name directories) :
    '\\' ∉ path.toList := by
  by_cases hname : Rooted name.toList
  · rw [candidates_of_rooted hname, List.mem_singleton] at hpath
    rw [hpath]
    exact backslash_notMem_normalize name
  · rw [candidates_of_not_rooted hname] at hpath
    rcases List.mem_cons.mp hpath with rfl | hjoined
    · exact backslash_notMem_normalize name
    · obtain ⟨d, -, rfl⟩ := List.mem_map.mp hjoined
      exact backslash_notMem_normalize _

/-- The candidates go by what names and directories are with slashes. -/
theorem candidates_normalize (name : String) (directories : List String) :
    candidates (normalize name) (directories.map normalize) = candidates name directories := by
  have hempty (d : String) : (normalize d).isEmpty = d.isEmpty := by
    rw [Bool.eq_iff_iff, String.isEmpty_iff, String.isEmpty_iff, normalize_eq_empty_iff]
  rw [candidates, candidates, normalize_normalize, List.filter_map, List.map_map]
  simp only [Function.comp_def, hempty, normalize_normalize]

/-- **The separators do not matter.** -/
theorem candidates_of_respelled (hname : Respelled name other)
    (hdirectories : List.Forall₂ Respelled directories directories') :
    candidates other directories' = candidates name directories := by
  have hall : directories.map normalize = directories'.map normalize :=
    map_eq_map_of_forall₂ hdirectories fun _ _ => Respelled.normalize_eq
  rw [← candidates_normalize name, ← candidates_normalize other, hname.normalize_eq, hall]

/-! ## The directory of a path -/

variable {front back : List Char}

/-- A path with a separator has a last one. -/
theorem exists_last_separator (hpath : ∃ c ∈ path.toList, isSeparator c = true) :
    ∃ front back, (normalize path).toList = front ++ '/' :: back ∧ '/' ∉ back := by
  obtain ⟨c, hmem, hc⟩ := hpath
  have hslash : '/' ∈ (normalize path).toList.reverse := by
    rw [List.mem_reverse, toList_normalize, ← slashed_of_separator hc]
    exact List.mem_map_of_mem hmem
  obtain ⟨back, front, hsplit, hback⟩ := List.eq_append_cons_of_mem hslash
  refine ⟨front.reverse, back.reverse, ?_, fun h => hback (List.mem_reverse.mp h)⟩
  rw [← List.reverse_reverse (normalize path).toList, hsplit, List.reverse_append,
    List.reverse_cons, List.append_assoc, List.singleton_append]

/-- The directory of a path ends with the path's last separator. -/
theorem directory_eq (hpath : (normalize path).toList = front ++ '/' :: back)
    (hback : '/' ∉ back) : Path.directory path = String.ofList (front ++ ['/']) := by
  have hskip : ∀ c ∈ back.reverse, decide (c ≠ '/') = true := by
    intro c hc
    exact decide_eq_true fun h => hback (h ▸ List.mem_reverse.mp hc)
  rw [Path.directory, hpath, List.reverse_append, List.reverse_cons, List.append_assoc,
    List.dropWhile_append_of_pos hskip, List.singleton_append,
    List.dropWhile_cons_of_neg (by decide), List.reverse_cons, List.reverse_reverse]

/-- **In the directory of a path** a name stands in place of what is behind the
path's last separator. -/
theorem joined_directory (hpath : (normalize path).toList = front ++ '/' :: back)
    (hback : '/' ∉ back) (name : String) :
    joined (Path.directory path) name =
      String.ofList (front ++ '/' :: (normalize name).toList) := by
  have hclosed : (Path.directory path).toList = front ++ ['/'] := by
    rw [directory_eq hpath hback, String.toList_ofList]
  have hslashes : '\\' ∉ (Path.directory path).toList := by
    have hnone := backslash_notMem_normalize path
    rw [hpath] at hnone
    rw [hclosed]
    intro h
    rcases List.mem_append.mp h with hfront | hlast
    · exact hnone (List.mem_append_left _ hfront)
    · cases List.mem_singleton.mp hlast
  have hends : (Path.directory path).toList.getLast?.any isSeparator = true := by
    rw [hclosed, List.getLast?_concat]
    rfl
  rw [joined, if_pos hends, normalize_append, normalize_of_notMem hslashes, ← String.toList_inj,
    String.toList_append, hclosed, String.toList_ofList, List.append_assoc, List.singleton_append]

end Path

end BasicLexer
