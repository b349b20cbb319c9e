import BasicLexer.Proofs.Input.Disks
import BasicLexer.Proofs.Listing.Turns

/-!
# Listings — files that are searched for

Where include files are looked for on a disk, any name may open one, and
one file may open under many names. The loop ends all the same: names come
out of lines, and whatever is opened, the lines are those of the files
there are (`Scanner.Draws`). So there are finitely many names that a loop
can ask for, and over the files under these it is a loop over a table. That
bounds it by the allowance that a listing is made with
(`Listing.exists_loop_within_allowance`).
-/

namespace BasicLexer

open Scan

namespace Listing

/-! ## Names -/

/-- The names that a line may ask for: one for each way that a block comment
can stand at its start. -/
def asked (options : Options) (line : Bytes) : List String :=
  [false, true].filterMap fun inComment =>
    (Statement.ofLine options inComment line).toOption.bind fun found => found.1.request?

variable {options : Options} {line : Bytes} {inComment isOpen : Bool} {name : String}

theorem length_asked_le (options : Options) (line : Bytes) : (asked options line).length ≤ 2 :=
  List.length_filterMap_le _ _

theorem mem_asked
    (hline : Statement.ofLine options inComment line = .ok (.request name, isOpen)) :
    name ∈ asked options line := by
  refine List.mem_filterMap.mpr ⟨inComment, by cases inComment <;> decide, ?_⟩
  rw [hline]
  rfl

/-- The names that lines may ask for. -/
def askedIn (options : Options) (lines : List Bytes) : List String := lines.flatMap (asked options)

theorem length_askedIn_le (options : Options) (lines : List Bytes) :
    (askedIn options lines).length ≤ lines.length * 2 := by
  rw [askedIn, length_flatMap_eq_total]
  exact total_le_mul fun line _ => length_asked_le options line

end Listing

/-- The files that a resolver opens under the names given. -/
def Resolver.opened (resolver : Resolver) (names : List String) : List (String × Source) :=
  names.filterMap fun name => (resolver.open? name).map fun source => (name, source)

theorem Resolver.mem_opened {resolver : Resolver} {names : List String} {name : String}
    {source : Source} :
    (name, source) ∈ resolver.opened names ↔ name ∈ names ∧ resolver.open? name = some source := by
  simp only [opened, List.mem_filterMap, Option.map_eq_some_iff, Prod.mk.injEq]
  constructor
  · rintro ⟨_, hname, _, hopen, rfl, rfl⟩
    exact ⟨hname, hopen⟩
  · rintro ⟨hname, hopen⟩
    exact ⟨name, hname, source, hopen, rfl, rfl⟩

/-! ## Lines -/

namespace Scanner

/-- A scanner draws on the lines given: whatever it may come to is among
them. -/
structure Draws (all : List Bytes) (s : Scanner) : Prop where
  stack : ∀ line ∈ (s.stack.lines s.options.maxLine).flatten, line ∈ all
  files : ∀ name source, s.resolver.open? name = some source →
    (source.lines s.options.maxLine).Sublist all

namespace Draws

variable {all : List Bytes} {s s₁ s₂ : Scanner} {name : String}

/-- A line that is fetched is one of them. -/
theorem getLine (hs : s.Draws all) (hline : Scan.getLine s = .ok true s₁) :
    s₁.Draws all ∧ s₁.head.line ∈ all := by
  obtain ⟨b, raw, stack, hfetch, rfl⟩ := fetch_of_getLine hline
  have hsuffix := Stack.lines_of_fetchFrom hfetch
  have hthis : terminated (b :: raw) ∈ all :=
    hs.stack _ (hsuffix.subset List.mem_cons_self)
  exact ⟨⟨fun line hmem => hs.stack line (hsuffix.subset (List.mem_cons_of_mem _ hmem)),
    hs.files⟩, hthis⟩

/-- So are those of a file that is opened. -/
theorem pushInclude {status : IncludeStatus} (hs : s.Draws all)
    (hpush : Scan.pushInclude name s = .ok status s₁) : s₁.Draws all := by
  rcases pushInclude_cases hpush with ⟨-, -, rfl⟩ | ⟨-, -, -, rfl⟩ | ⟨source, -, hopen, -, rfl⟩
  · exact hs
  · exact ⟨hs.stack, hs.files⟩
  · refine ⟨fun line hmem => ?_, hs.files⟩
    simp only [Stack.push, Stack.lines, Stack.linesOf, List.map_cons, List.cons_append,
      List.flatten_cons, List.mem_append] at hmem
    rcases hmem with hmem | hmem
    · exact (hs.files name source hopen).subset hmem
    · exact hs.stack line (by
        simpa only [Stack.lines, Stack.linesOf, List.mem_append] using hmem)

end Draws

end Scanner

namespace Listing

open Scanner

variable {all : List Bytes} {s s₁ s₂ : Scanner} {these tokens : List Token}

/-- **A turn** leaves a scanner with the lines it draws on, and the file it
may open is one of those under the names that these ask for. -/
theorem draws_turn (hs : s.Draws all) (hline : getLine s = .ok true s₁)
    (hstatement : statement s₁ = .ok these s₂) :
    s₂.Draws all ∧
      Scanner.Spends (s.resolver.opened (askedIn s.options all)) s₁ s₂ := by
  obtain ⟨hs₁, hmem⟩ := hs.getLine hline
  obtain ⟨_, _, _, -, rfl⟩ := fetch_of_getLine hline
  rcases turn_cases hline hstatement with ⟨h, -, rfl⟩ | ⟨name, h, status, hfound, -, -, hpush⟩
  · exact ⟨⟨hs₁.stack, hs₁.files⟩, .of_head h none _⟩
  · have hhead : Draws all { s with stack := _, head := h, saved := none } := ⟨hs₁.stack, hs₁.files⟩
    refine ⟨hhead.pushInclude hpush, (Scanner.Spends.of_head h none _).trans ?_⟩
    have hname : name ∈ askedIn s.options all :=
      List.mem_flatMap.mpr ⟨_, hmem, mem_asked hfound⟩
    exact spends_of_pushInclude (fun source hopen => Resolver.mem_opened.mpr ⟨hname, hopen⟩) hpush

/-- **The loop ends** if it draws on finitely many lines. -/
theorem exists_loop_of_draws (tokens : List Token) (hs : s.Draws all) :
    ∃ lines result, Loop tokens s lines result ∧
      lines ≤ s.linesAhead (s.resolver.opened (askedIn s.options all)) := by
  refine exists_loop_of
    (fun t => t.options = s.options ∧ t.resolver = s.resolver ∧ t.Draws all) ?_ tokens
    ⟨rfl, rfl, hs⟩
  rintro t t₁ t₂ these ⟨hoptions, hresolver, ht⟩ hline hstatement
  obtain ⟨hdraws, hspends⟩ := draws_turn ht hline hstatement
  obtain ⟨hoptions₁, hresolver₁, -⟩ := linesAhead_getLine [] hline
  rw [hoptions, hresolver] at hspends
  exact ⟨⟨(hspends.options.trans hoptions₁).trans hoptions,
    (hspends.resolver.trans hresolver₁).trans hresolver, hdraws⟩, hspends.linesAhead_le⟩

/-- How many lines may be ahead of a scanner that draws on lines: those on
the stack, and for each name that a line may ask for all there are. -/
theorem linesAhead_opened_le (hs : s.Draws all) :
    s.linesAhead (s.resolver.opened (askedIn s.options all)) ≤
      s.stack.left + all.length * 2 * all.length := by
  have hstack := Stack.linesLeft_le_left s.options.maxLine s.stack
  have hfiles := total_le_of_sublist
    (fun f : String × Source => (f.2.lines s.options.maxLine).length)
    (List.filter_sublist (p := fun f => !s.included.contains f.1)
      (l := s.resolver.opened (askedIn s.options all)))
  have heach : total (fun f : String × Source => (f.2.lines s.options.maxLine).length)
      (s.resolver.opened (askedIn s.options all)) ≤
        (s.resolver.opened (askedIn s.options all)).length * all.length :=
    total_le_mul fun f hf => (hs.files f.1 f.2 (Resolver.mem_opened.mp hf).2).length_le
  have hnames : (s.resolver.opened (askedIn s.options all)).length ≤ all.length * 2 :=
    Nat.le_trans (List.length_filterMap_le _ _) (length_askedIn_le _ _)
  have hproduct := Nat.mul_le_mul_right all.length hnames
  rw [linesAhead]
  omega

/-- **A loop ends within the allowance** of a listing if it draws on no more
lines than the resolver holds bytes. -/
theorem exists_loop_within_allowance (tokens : List Token) (hs : s.Draws all)
    (hvolume : all.length ≤ s.resolver.volume) :
    ∃ lines result, Loop tokens s lines result ∧ lines < allowance s := by
  obtain ⟨lines, result, hloop, hlines⟩ := exists_loop_of_draws tokens hs
  have hahead := linesAhead_opened_le hs
  refine ⟨lines, result, hloop, ?_⟩
  have hproduct : all.length * 2 * all.length ≤
      (s.stack.left + 2 * s.resolver.volume) * s.resolver.volume :=
    Nat.mul_le_mul (by omega) hvolume
  rw [allowance]
  omega

end Listing

end BasicLexer
