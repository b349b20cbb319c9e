import BasicLexer.Command
import BasicLexer.Proofs.Path

/-!
# Command — where a run looks for include files

A run searches the directories of its configuration, then those of its
arguments, then the one its program lies in (`Command.includePaths_options`).
So the last path that is tried for a name lies beside the program: it is the
path of the program, with the name in place of what is behind the last
separator.
-/

namespace BasicLexer

namespace Command

open BasicLexer.Path

variable {disk : Disk} {arguments : Arguments} {s : Scanner} {found : Options}

/-- The options that a run starts from: those of its configuration, or the
defaults. -/
def Base (disk : Disk) (arguments : Arguments) (base : Options) : Prop :=
  match arguments.config with
  | none => base = {}
  | some path => Options.load disk path = .ok base

theorem includePaths_addIncludePaths (base : Options) (directories : List String) :
    (directories.foldl Options.addIncludePath base).includePaths =
      base.includePaths ++ directories := by
  induction directories generalizing base with
  | nil => exact (List.append_nil _).symm
  | cons d directories ih =>
    rw [List.foldl_cons, ih, Options.addIncludePath, List.append_assoc, List.singleton_append]

/-- Strictness is no matter of where files are looked for. -/
theorem includePaths_strict (o : Options) (strict : Bool) :
    (if strict then o.setLiteralOverflow .error else o).includePaths = o.includePaths := by
  cases strict <;> rfl

/-- **The directories searched** are those of the configuration, those of the
arguments and that of the program, in this order. -/
theorem includePaths_options (hoptions : options disk arguments = .ok found) :
    ∃ base, Base disk arguments base ∧
      found.includePaths = base.includePaths ++ (arguments.includeDirs ++
        if Path.directory arguments.file = "" then [] else [Path.directory arguments.file]) := by
  rw [options] at hoptions
  cases hconfig : arguments.config with
  | none =>
    rw [hconfig] at hoptions
    cases hoptions
    exact ⟨{}, by rw [Base, hconfig],
      (includePaths_strict _ _).trans (includePaths_addIncludePaths _ _)⟩
  | some path =>
    rw [hconfig] at hoptions
    dsimp only at hoptions
    cases hload : Options.load disk path with
    | ok base =>
      rw [hload] at hoptions
      cases hoptions
      exact ⟨base, by rw [Base, hconfig]; exact hload,
        (includePaths_strict _ _).trans (includePaths_addIncludePaths _ _)⟩
    | error e =>
      rw [hload] at hoptions
      cases hoptions

/-- The scanner of a run looks where its options say. -/
theorem resolver_scanner (hscanner : scanner disk arguments = .ok s) :
    ∃ found, options disk arguments = .ok found ∧
      s.resolver = .search disk found.includePaths := by
  obtain ⟨found, hoptions, hopened⟩ := except_bind_eq_ok hscanner
  refine ⟨found, hoptions, ?_⟩
  cases hopen : disk.openSource arguments.file with
  | ok program =>
    rw [hopen] at hopened
    cases hopened
    rfl
  | error fault =>
    rw [hopen] at hopened
    cases hopened

/-- What a run tries for a name that is not rooted, if its program lies in a
directory. -/
theorem candidates_of_includePaths {base : Options} {front back : List Char} {name : String}
    (hpath : (normalize arguments.file).toList = front ++ '/' :: back) (hback : '/' ∉ back)
    (hname : ¬ Rooted name.toList)
    (hsearched : found.includePaths = base.includePaths ++ (arguments.includeDirs ++
      if Path.directory arguments.file = "" then [] else [Path.directory arguments.file])) :
    candidates name found.includePaths = normalize name ::
      (searchedIn base.includePaths name ++ searchedIn arguments.includeDirs name ++
        [String.ofList (front ++ '/' :: (normalize name).toList)]) := by
  have hown : Path.directory arguments.file ≠ "" := by
    rw [directory_eq hpath hback]
    intro h
    exact List.append_ne_nil_of_right_ne_nil front (List.cons_ne_nil '/' [])
      (String.ofList_eq_empty_iff.mp h)
  rw [candidates_of_not_rooted hname, hsearched, if_neg hown, searchedIn_append, searchedIn_append,
    searchedIn_singleton hown, joined_directory hpath hback, List.append_assoc]

/-- **The paths tried for a name.** They have no backslash, and are the same
whichever separators the name and the directories are written with. A rooted
name is tried alone and any other as it is and then once in each directory that
is not empty, in order. The last path that a run tries for a name that is not
rooted lies beside its program, if that has a separator in its path: it is the
path of the program with the name in place of what is behind the last
separator. Before it come the directories of the configuration and then those
of the arguments. -/
theorem candidates_beside_program (name : String) (directories : List String) :
    (∀ path ∈ candidates name directories, '\\' ∉ path.toList) ∧
    (∀ name' directories', Respelled name name' → List.Forall₂ Respelled directories directories' →
      candidates name' directories' = candidates name directories) ∧
    (Rooted name.toList → candidates name directories = [normalize name]) ∧
    (¬ Rooted name.toList →
      candidates name directories = normalize name :: searchedIn directories name) ∧
    ∀ disk arguments s, scanner disk arguments = .ok s →
      (∃ c ∈ arguments.file.toList, isSeparator c = true) → ¬ Rooted name.toList →
      ∃ base searched front back, Base disk arguments base ∧ s.resolver = .search disk searched ∧
        (normalize arguments.file).toList = front ++ '/' :: back ∧ '/' ∉ back ∧
        candidates name searched = normalize name ::
          (searchedIn base.includePaths name ++ searchedIn arguments.includeDirs name ++
            [String.ofList (front ++ '/' :: (normalize name).toList)]) := by
  refine ⟨fun path => backslash_notMem_of_mem_candidates,
    fun name' directories' => candidates_of_respelled,
    fun hname => candidates_of_rooted hname directories,
    fun hname => candidates_of_not_rooted hname directories, ?_⟩
  intro disk arguments s hscanner hseparator hname
  obtain ⟨found, hoptions, hresolver⟩ := resolver_scanner hscanner
  obtain ⟨base, hbase, hsearched⟩ := includePaths_options hoptions
  obtain ⟨front, back, hpath, hback⟩ := exists_last_separator hseparator
  exact ⟨base, found.includePaths, front, back, hbase, hresolver, hpath, hback,
    candidates_of_includePaths hpath hback hname hsearched⟩

/-- A program with a backslash in its path, and a directory of each kind. -/
theorem candidates_beside_mainProgram :
    let config := "\x7b\"includePaths\":[\"opt\", \"\"]\x7d"
    let disk := Disk.ofPaths [("c.json", .ok (.file config.toUTF8.toList)),
      ("src\\main.bas", .ok (.file []))]
    let arguments : Arguments :=
      { file := "src\\main.bas", includeDirs := ["inc/"], config := some "c.json" }
    Respelled "lib\\io.bas" "lib/io.bas" ∧ List.Forall₂ Respelled ["inc\\", ""] ["inc/", ""] ∧
      candidates "lib/io.bas" ["inc/", ""] = candidates "lib\\io.bas" ["inc\\", ""] ∧
      Rooted "C:\\io.bas".toList ∧ candidates "C:\\io.bas" ["inc"] = ["C:/io.bas"] ∧
      ¬ Rooted "lib\\io.bas".toList ∧
      candidates "lib\\io.bas" ["inc\\", ""] = ["lib/io.bas", "inc/lib/io.bas"] ∧
      ∃ s, scanner disk arguments = .ok s ∧ (∃ c ∈ arguments.file.toList, isSeparator c = true) ∧
        ∃ base searched front back, Base disk arguments base ∧ s.resolver = .search disk searched ∧
          (normalize arguments.file).toList = front ++ '/' :: back ∧ '/' ∉ back ∧
          candidates "lib\\io.bas" searched = "lib/io.bas" ::
            (searchedIn base.includePaths "lib\\io.bas" ++ ["inc/lib/io.bas"] ++
              [String.ofList (front ++ '/' :: "lib/io.bas".toList)]) := by
  intro config disk arguments
  have hname : ¬ Rooted "lib\\io.bas".toList :=
    fun h => absurd (isRooted_iff.mpr h) (by decide)
  have hrooted : Rooted "C:\\io.bas".toList := isRooted_iff.mp (by decide)
  have hrespelled : Respelled "lib\\io.bas" "lib/io.bas" := by decide
  have hdirectories : List.Forall₂ Respelled ["inc\\", ""] ["inc/", ""] := by decide
  have hseparator : ∃ c ∈ arguments.file.toList, isSeparator c = true :=
    ⟨'\\', by decide, rfl⟩
  have hsome : (scanner disk arguments).toOption.isSome = true := by decide +kernel
  obtain ⟨-, hsame, -, hrelative, hrun⟩ := candidates_beside_program "lib\\io.bas" ["inc\\", ""]
  have halone := (candidates_beside_program "C:\\io.bas" ["inc"]).2.2.1 hrooted
  cases hscanner : scanner disk arguments with
  | error text =>
    rw [hscanner] at hsome
    cases hsome
  | ok s =>
    exact ⟨hrespelled, hdirectories, hsame _ _ hrespelled hdirectories, hrooted, halone, hname,
      hrelative hname, s, rfl, hseparator, hrun disk arguments s hscanner hseparator hname⟩

end Command

end BasicLexer
