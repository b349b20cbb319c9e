import BasicLexer.Proofs.Input.Frames

/-!
# Scanner — logs of what was delivered

The answers that a client of a scanner gets are kept in a log. A log and
the frames of the open files belong together (`Kept`) if of every open
file the log holds just the lines it has no longer left, and all lines of
the files that were opened and are open no more. Files take turns, but no
two open files have one name, so a line that is delivered touches the
record of its own file alone (`Kept.deliver`).
-/

namespace BasicLexer

/-- A line that was delivered, with the file and the number that the
scanner's position gave. -/
structure Delivery where
  file : Option String
  number : Nat
  line : Bytes

/-- The answer to a request. -/
inductive Answer where
  | delivered (delivery : Delivery)
  | noLine
  | status (name : String) (status : IncludeStatus)

/-! ## Logs -/

/-- The answers so far, in order. -/
abbrev Log := List Answer

namespace Log

/-- The line of an answer with its number, if the answer delivers one of
the file. -/
def lineOf? (file : Option String) : Answer → Option (Bytes × Nat)
  | .delivered d => if d.file = file then some (d.line, d.number) else none
  | _ => none

/-- The lines of a file that were delivered, each with its number. -/
def linesOf (file : Option String) (log : Log) : List (Bytes × Nat) := log.filterMap (lineOf? file)

/-- Whether a file was opened; the program always is. -/
def Opened (log : Log) : Option String → Prop
  | none => True
  | some name => Answer.status name .opened ∈ log

variable {log : Log} {file : Option String}

/-! ### One answer more -/

theorem linesOf_delivered (d : Delivery) :
    linesOf file (log ++ [.delivered d]) =
      linesOf file log ++ if d.file = file then [(d.line, d.number)] else [] := by
  rw [linesOf, List.filterMap_append]
  by_cases hfile : d.file = file <;> simp [linesOf, lineOf?, hfile]

theorem linesOf_noLine : linesOf file (log ++ [.noLine]) = linesOf file log := by
  simp [linesOf, lineOf?]

theorem linesOf_status (name : String) (status : IncludeStatus) :
    linesOf file (log ++ [.status name status]) = linesOf file log := by
  simp [linesOf, lineOf?]

theorem opened_delivered (d : Delivery) :
    Opened (log ++ [.delivered d]) file ↔ Opened log file := by
  cases file <;> simp [Opened]

theorem opened_noLine : Opened (log ++ [.noLine]) file ↔ Opened log file := by
  cases file <;> simp [Opened]

theorem opened_status (name : String) (status : IncludeStatus) :
    Opened (log ++ [.status name status]) file ↔
      Opened log file ∨ file = some name ∧ status = .opened := by
  cases file <;> simp [Opened, eq_comm]

end Log

/-! ## Libraries -/

/-- A program and its include files, none of which fails. -/
structure Library where
  program : Source
  files : List (String × Source)
  reliable_program : program.Reliable
  reliable_files : ∀ f ∈ files, f.2.Reliable

namespace Library

/-- The logical lines of the program, or of a file by its name. -/
def lines? (library : Library) (limit : Nat) : Option String → Option (List Bytes)
  | none => some (library.program.lines limit)
  | some name => (library.files.lookup name).map (Source.lines limit)

/-- A scanner on the program that finds the files. -/
def start (library : Library) (options : Options) : Scanner :=
  .start options (.table library.files) library.program

end Library

/-! ## Logs and frames -/

/-- A log and the frames of the open files belong together. -/
structure Kept (library : Library) (limit : Nat) (log : Log) (frames : List Frame) : Prop where
  /-- No two open files have one name. -/
  nodup : (frames.map Frame.file).Nodup
  /-- An open file was opened, and the log holds the lines it has no
  longer left. -/
  opened : ∀ f ∈ frames, log.Opened f.file ∧ ∃ done,
    library.lines? limit f.file = some (done ++ f.left) ∧ f.number = done.length ∧
      Log.linesOf f.file log = done.zipIdx 1
  /-- Of a file that was opened and is open no more it holds all lines. -/
  closed : ∀ file, log.Opened file → file ∉ frames.map Frame.file → ∃ lines,
    library.lines? limit file = some lines ∧ Log.linesOf file log = lines.zipIdx 1
  /-- Of any other file it holds none. -/
  unopened : ∀ file, ¬ log.Opened file → Log.linesOf file log = []

/-- Of every file that was opened, all lines were delivered, in order and
numbered from one. -/
def Complete (library : Library) (limit : Nat) (log : Log) : Prop :=
  ∀ file, log.Opened file → ∃ lines,
    library.lines? limit file = some lines ∧ Log.linesOf file log = lines.zipIdx 1

namespace Kept

variable {library : Library} {limit : Nat} {log : Log} {frames closed below : List Frame}

/-- A frame with no line left may go. -/
theorem drop (hkept : Kept library limit log (closed ++ below))
    (hclosed : ∀ f ∈ closed, f.left = []) : Kept library limit log below where
  nodup := by
    have hnodup := hkept.nodup
    rw [List.map_append] at hnodup
    exact (List.nodup_append.mp hnodup).2.1
  opened f hf := hkept.opened f (List.mem_append_right _ hf)
  closed file hopened hfile := by
    by_cases hgone : file ∈ closed.map Frame.file
    · obtain ⟨f, hf, rfl⟩ := List.mem_map.mp hgone
      obtain ⟨-, done, hlines, -, hlog⟩ := hkept.opened f (List.mem_append_left _ hf)
      rw [hclosed f hf, List.append_nil] at hlines
      exact ⟨done, hlines, hlog⟩
    · refine hkept.closed file hopened ?_
      rw [List.map_append, List.mem_append]
      exact not_or.mpr ⟨hgone, hfile⟩
  unopened := hkept.unopened

/-- Where no frame has a line left, everything was delivered. -/
theorem complete (hkept : Kept library limit log frames) (hnone : ∀ f ∈ frames, f.left = []) :
    Complete library limit log := by
  intro file hopened
  have hgone : Kept library limit log [] := drop (by rwa [List.append_nil]) hnone
  exact hgone.closed file hopened List.not_mem_nil

/-- What a log holds besides lines and files opened is no matter. -/
theorem congr {log' : Log} (hkept : Kept library limit log frames)
    (hlines : ∀ file, Log.linesOf file log' = Log.linesOf file log)
    (hopened : ∀ file, log'.Opened file ↔ log.Opened file) : Kept library limit log' frames where
  nodup := hkept.nodup
  opened f hf := by
    rw [hopened, hlines]
    exact hkept.opened f hf
  closed file := by
    rw [hopened, hlines]
    exact hkept.closed file
  unopened file := by
    rw [hopened, hlines]
    exact hkept.unopened file

/-- A file that is opened for the first time has all its lines left. -/
theorem opening {name : String} {source : Source} (hkept : Kept library limit log frames)
    (hnew : ¬ log.Opened (some name)) (hfile : library.files.lookup name = some source) :
    Kept library limit (log ++ [.status name .opened])
      (⟨some name, 0, source.lines limit⟩ :: frames) where
  nodup := by
    refine List.nodup_cons.mpr ⟨fun hname => ?_, hkept.nodup⟩
    obtain ⟨f, hf, hfile⟩ := List.mem_map.mp hname
    have hname : f.file = some name := hfile
    exact hnew (hname ▸ (hkept.opened f hf).1)
  opened f hf := by
    rw [Log.opened_status, Log.linesOf_status]
    rcases List.mem_cons.mp hf with rfl | hf
    · refine ⟨.inr ⟨rfl, rfl⟩, [], ?_, rfl, hkept.unopened _ hnew⟩
      rw [Library.lines?, hfile]
      rfl
    · exact ⟨.inl (hkept.opened f hf).1, (hkept.opened f hf).2⟩
  closed file := by
    rw [Log.opened_status, Log.linesOf_status, List.map_cons, List.mem_cons, not_or]
    rintro (hopened | ⟨hname, -⟩) ⟨hother, hfile⟩
    · exact hkept.closed file hopened hfile
    · exact absurd hname hother
  unopened file := by
    rw [Log.opened_status, Log.linesOf_status, not_or]
    exact fun h => hkept.unopened file h.1

/-- **A line that is delivered** goes from the lines left to those in the
log. -/
theorem deliver {top : Frame} {line : Bytes} {rest : List Bytes}
    (hkept : Kept library limit log (top :: below)) (htop : top.left = line :: rest) :
    Kept library limit (log ++ [.delivered ⟨top.file, top.number + 1, line⟩])
      (top.advance :: below) where
  nodup := hkept.nodup
  opened f hf := by
    rw [Log.opened_delivered, Log.linesOf_delivered]
    rcases List.mem_cons.mp hf with rfl | hf
    · obtain ⟨hopened, done, hlines, hnumber, hlog⟩ := hkept.opened top List.mem_cons_self
      refine ⟨hopened, done ++ [line], ?_, ?_, ?_⟩
      · simp [Frame.advance, hlines, htop]
      · simp [Frame.advance, hnumber]
      · simp [Frame.advance, hlog, hnumber, List.zipIdx_append, Nat.add_comm]
    · -- the names of the frames below are others
      have hother : top.file ≠ f.file := fun h =>
        (List.nodup_cons.mp hkept.nodup).1 (h ▸ List.mem_map_of_mem hf)
      rw [if_neg hother, List.append_nil]
      exact hkept.opened f (List.mem_cons_of_mem _ hf)
  closed file := by
    rw [Log.opened_delivered, Log.linesOf_delivered]
    intro hopened hfile
    have hother : top.file ≠ file := fun h => hfile (h ▸ List.mem_cons_self)
    rw [if_neg hother, List.append_nil]
    exact hkept.closed file hopened hfile
  unopened file := by
    rw [Log.opened_delivered, Log.linesOf_delivered]
    intro hopened
    have hother : top.file ≠ file := fun h =>
      hopened (h ▸ (hkept.opened top List.mem_cons_self).1)
    rw [if_neg hother, List.append_nil]
    exact hkept.unopened file hopened

end Kept

end BasicLexer
