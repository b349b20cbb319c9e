import BasicLexer.Command
import BasicLexer.Proofs.Client.Alike
import BasicLexer.Proofs.Listing.Searches

/-!
# Command — all or nothing

The command writes nothing before its pass is over. So a run that fails,
wherever it does, leaves the output empty and one report among the errors:
that no scanner could be made, or the diagnostic that the pass failed of.
A run that succeeds has reported nothing, and its output is one line a
token, with the names of the files included after them if those are asked
for. On the disk of a tree there is no other way for a run to end
(`Command.ends_invoke`): the listing is what its loop ends in, for the
lines that the loop may come to are those of the tree. What is said of a text
that is no configuration is whatever it is given to say.
-/

namespace BasicLexer

open Scan

namespace Command

open Listing

variable {explain : String → String} {disk : Disk} {arguments : Arguments}

/-- How a run of the command may end. -/
inductive Ends (explain : String → String) (disk : Disk) (arguments : Arguments) : Outcome → Prop
  /-- The configuration cannot be loaded. -/
  | misconfigured {path : String} {e : Options.LoadError} (hpath : arguments.config = some path)
      (hload : Options.load disk path = .error e) :
      Ends explain disk arguments
        { exit := 1, output := ""
          errors := "error: " ++ ("Failed to read " ++ path ++ ": " ++ e.message explain) ++ "\n" }
  /-- The program cannot be opened. -/
  | unopened {options : Options} {fault : Fault}
      (hoptions : Command.options disk arguments = .ok options)
      (hopen : disk.openSource arguments.file = .error fault) :
      Ends explain disk arguments
        { exit := 1, output := ""
          errors := "error: " ++
            ("cannot open " ++ arguments.file ++ ": " ++ fault.message) ++ "\n" }
  /-- The pass fails of a diagnostic. -/
  | failed {s begun s' : Scanner} {lines : Nat} {diagnostic : Diagnostic}
      (hscanner : scanner disk arguments = .ok s) (hbegin : rewind s = .ok () begun)
      (hloop : Loop [] begun lines (.error (.reported diagnostic) s')) :
      Ends explain disk arguments { exit := 1, output := "", errors := diagnostic.render }
  /-- The pass ends in tokens, and nothing was reported. The names are those
  that its lines ask for, in order, and each is that of a file. -/
  | listed {s begun s' : Scanner} {lines : Nat} {tokens : List Token} {names : List String}
      (hscanner : scanner disk arguments = .ok s) (hbegin : rewind s = .ok () begun)
      (hloop : Loop [] begun lines (.ok tokens s')) (hasks : Asks begun names s')
      (hopen : ∀ name ∈ names, (begun.resolver.open? name).isSome)
      (hshown : ∀ t ∈ tokens, t.OneLine) (hquiet : s'.reportText = "") :
      Ends explain disk arguments
        { exit := 0
          output := String.join (tokens.map fun t => t.display ++ "\n") ++
            if arguments.listFiles then String.join (names.eraseDups.map (· ++ "\n")) else ""
          errors := "" }

/-! ## The scanner of a run -/

/-- Where a run has its scanner from, or why it has none. -/
theorem scanner_cases (disk : Disk) (arguments : Arguments) :
    (∃ cause, options disk arguments = .error cause ∧ scanner disk arguments = .error cause) ∨
    (∃ found fault, options disk arguments = .ok found ∧
      disk.openSource arguments.file = .error fault ∧
      scanner disk arguments = .error (.unopened arguments.file fault)) ∨
    (∃ found program, disk.openSource arguments.file = .ok program ∧
      scanner disk arguments = .ok (.startOn disk found program)) := by
  rw [scanner]
  cases options disk arguments with
  | error cause => exact .inl ⟨cause, rfl, rfl⟩
  | ok found =>
    cases disk.openSource arguments.file with
    | error fault => exact .inr (.inl ⟨found, fault, rfl, rfl, rfl⟩)
    | ok program => exact .inr (.inr ⟨found, program, rfl, rfl⟩)

/-- The options of a run are wrong only where its configuration is. -/
theorem options_eq_error {cause : StartError} (hoptions : options disk arguments = .error cause) :
    ∃ path e, arguments.config = some path ∧ Options.load disk path = .error e ∧
      cause = .misconfigured path e := by
  rw [options] at hoptions
  cases hconfig : arguments.config with
  | none =>
    rw [hconfig] at hoptions
    cases hoptions
  | some path =>
    rw [hconfig] at hoptions
    dsimp only at hoptions
    cases hload : Options.load disk path with
    | ok base =>
      rw [hload] at hoptions
      cases hoptions
    | error e =>
      rw [hload] at hoptions
      cases hoptions
      exact ⟨path, e, rfl, hload, rfl⟩

/-! ## The pass of a run -/

variable {files : List Bytes} {found : Options} {program : Source}

/-- The pass of a run begins, and draws on the lines of the disk's files. -/
theorem draws_rewound (found : Options) (hdisk : disk.Holds files)
    (hopen : disk.openSource arguments.file = .ok program) :
    rewind (.startOn disk found program) = .ok () (Scanner.startOn disk found program).rewound ∧
      (Scanner.startOn disk found program).rewound.Draws
        (Bytes.linesOfAll found.maxLine files) := by
  have hstart := (Disk.openSource_eq_ok hopen).1
  have hbegin : rewind (.startOn disk found program) =
      .ok () (Scanner.startOn disk found program).rewound := by
    simp only [rewind, Scanner.closeAll, Stack.closeAll, Stack.rewind, Scanner.rewound,
      Scanner.startOn, Scanner.start, Source.rewind, hstart.rewindFault]
  refine ⟨hbegin, fun line hmem => ?_, fun name source hname => ?_⟩
  · obtain ⟨-, -, -, -, hcontents, hpending⟩ := begins_of_rewind hbegin
    have hlines : (Scanner.startOn disk found program).rewound.stack.program.lines
        found.maxLine = program.lines found.maxLine := by
      rw [Source.lines, hpending, hcontents, Source.lines, hstart.pending]
      rfl
    have hmem : line ∈ program.lines found.maxLine := by
      rw [← hlines]
      simpa [Stack.lines, Stack.linesOf, Scanner.rewound, Scanner.startOn, Scanner.start] using hmem
    exact (hdisk.lines_sublist hopen).subset hmem
  · obtain ⟨path, hpath⟩ := Disk.openSource_of_search hname
    exact hdisk.lines_sublist hpath

/-- **The listing of a run is what its loop ends in**, however many lines
that fetches. -/
theorem exists_loop_of_openSource (found : Options) (hdisk : disk.Holds files)
    (hopen : disk.openSource arguments.file = .ok program) :
    let begun := (Scanner.startOn disk found program).rewound
    rewind (.startOn disk found program) = .ok () begun ∧
      ∃ lines result, Loop [] begun lines result ∧ list begun = result := by
  intro begun
  obtain ⟨hbegin, hdraws⟩ := draws_rewound found hdisk hopen
  obtain ⟨lines, result, hloop, hlines⟩ :=
    exists_loop_within_allowance [] hdraws (hdisk.length_linesOfAll_le _)
  exact ⟨hbegin, lines, result, hloop, hloop.list_eq hlines⟩

/-- **With a scanner** a run reports what its pass fails of, or lists what it
ends in. -/
theorem ends_of_scanner_eq_ok (explain : String → String) (hdisk : disk.Holds files)
    (hopen : disk.openSource arguments.file = .ok program)
    (hscanner : scanner disk arguments = .ok (.startOn disk found program)) :
    Ends explain disk arguments (run explain disk arguments) := by
  obtain ⟨hbegin, lines, result, hloop, hlist⟩ :=
    exists_loop_of_openSource found hdisk hopen
  generalize hbegun : (Scanner.startOn disk found program).rewound = begun at hbegin hloop hlist
  have hnone : begun.reports = [] := by
    rw [← hbegun]
    rfl
  have hincluded : begun.included = .empty := by
    rw [← hbegun]
    rfl
  have haccounted := hloop.accounted
  have hmake : make (.startOn disk found program) = closing list begun := bind_of_ok hbegin
  rw [closing, hlist] at hmake
  rw [run, hscanner]
  rcases result with ⟨tokens, s'⟩ | ⟨⟨diagnostic⟩ | ⟨broken⟩, s'⟩
  · obtain ⟨names, hasks⟩ := hloop.exists_asks rfl
    have hreports : s'.reports = begun.reports := haccounted.reports
    have hquiet : s'.reportText = "" := by
      rw [Scanner.reportText, hreports, hnone]
      rfl
    have hfiles : begun.IncludesFiles := by
      intro name hcontains
      rw [hincluded, OrderedSet.contains_empty] at hcontains
      cases hcontains
    have hends : Ends explain disk arguments _ := .listed hscanner hbegin hloop hasks
      (hasks.isSome_open? hfiles) (hloop.oneLine (List.forall_mem_nil _) rfl) hquiet
    rw [← hasks.includedFiles hincluded] at hends
    dsimp only
    rw [hmake]
    exact hends
  · have hreports : s'.reports = [diagnostic.render] ++ begun.reports := haccounted.reports
    have htext : s'.closeAll.reportText = diagnostic.render := by
      have hsame : s'.closeAll.reports = s'.reports := rfl
      rw [Scanner.reportText, hsame, hreports, hnone]
      simp
    dsimp only
    rw [hmake]
    dsimp only
    rw [htext]
    exact .failed hscanner hbegin hloop
  · exact haccounted.elim

/-- **On a disk that holds finitely many files** there is no other way for a
run to end. -/
theorem ends_run (explain : String → String) (hdisk : disk.Holds files) (arguments : Arguments) :
    Ends explain disk arguments (run explain disk arguments) := by
  rcases scanner_cases disk arguments with
    ⟨cause, hoptions, hscanner⟩ | ⟨found, fault, hoptions, hopen, hscanner⟩ |
      ⟨found, program, hopen, hscanner⟩
  · obtain ⟨path, e, hpath, hload, rfl⟩ := options_eq_error hoptions
    rw [run, hscanner]
    exact .misconfigured hpath hload
  · rw [run, hscanner]
    exact .unopened hoptions hopen
  · exact ends_of_scanner_eq_ok explain hdisk hopen hscanner

/-- **All or nothing.** Take any tree of files, some of which may refuse to be
opened, and any arguments that the command understands and that do not ask for
help. Either it exits with 0 and nothing was reported: the output is one line
for each token that the loop of the pass ends in, as no token is shown with a
newline, and then, if they are asked for, an entry for each file included, in
the order they were included. Or it exits with 1, the output is empty, and the
errors are one report: that the configuration could not be read or the program
not opened, or the diagnostic that the loop failed of. So it is whatever may be
said of a text that is no configuration. -/
theorem ends_invoke (explain : String → String) (tree : FileTree)
    (faults : String → Option Fault) (strings : List String) :
    let disk := tree.disk.refusing faults
    match invocation strings with
    | .run arguments => Ends explain disk arguments (invoke explain disk strings)
    | .help | .misuse => True := by
  intro disk
  have hdisk : disk.Holds tree.files := tree.holds_disk.refusing faults
  rw [invoke]
  cases invocation strings with
  | help | misuse => trivial
  | run arguments => exact ends_run explain hdisk arguments

example : invoke id (FileTree.ofList [("p.bas", some [])]).disk ["p.bas"] =
    { exit := 0, output := "<EOF>\n" } := by cbv

example : invoke id (FileTree.ofList []).disk ["p.bas"] =
    { exit := 1
      errors := "error: cannot open p.bas: No such file or directory (os error 2)\n" } := by cbv

end Command

end BasicLexer
