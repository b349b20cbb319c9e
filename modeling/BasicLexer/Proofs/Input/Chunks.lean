import BasicLexer.Input.Disk
import BasicLexer.Proofs.Input.Reliable

/-!
# Input — a text in chunks

A buffer hands a text out in chunks of its own choosing, and it may choose
them anew at every line: all that `Feed.HandsOut` says of it is that the
chunks make up what is left of the text. Every such buffer gives the same
lines (`Feed.HandsOut.readLine_eq`). They are the pieces of the text, the
only way there is to divide it as `Bytes.Divided` says.
-/

namespace BasicLexer

namespace Bytes

/-! ## Dividing a text -/

/-- Pieces that make up a text and of which none is empty, none goes on
behind a newline, none is longer than the limit, and none ends early: a
piece without a newline is as long as the limit or the last. -/
structure Divided (limit : Nat) (text : Bytes) (lines : List Bytes) : Prop where
  nonempty : ∀ line ∈ lines, line ≠ []
  whole : lines.flatten = text
  newline : ∀ line ∈ lines, Byte.newline ∉ line.dropLast
  within : ∀ line ∈ lines, line.length ≤ max limit 1
  full : ∀ line ∈ lines.dropLast, Byte.newline ∉ line → line.length = max limit 1

variable {limit room : Nat} {text : Bytes}

theorem firstLine_append_rest (room : Nat) (text : Bytes) :
    (firstLine room text).1 ++ (firstLine room text).2 = text := by
  induction text generalizing room with
  | nil => rfl
  | cons b rest ih =>
    rw [firstLine]
    split
    · rfl
    · exact congrArg (b :: ·) (ih (room - 1))

theorem newline_not_mem_dropLast_firstLine (room : Nat) (text : Bytes) :
    Byte.newline ∉ (firstLine room text).1.dropLast := by
  induction text generalizing room with
  | nil => exact List.not_mem_nil
  | cons b rest ih =>
    rw [firstLine]
    split
    · exact List.not_mem_nil
    · rename_i hgo
      have hb : Byte.newline ≠ b := fun h => hgo (.inl h.symm)
      cases hfirst : (firstLine (room - 1) rest).1 with
      | nil => exact List.not_mem_nil
      | cons c piece =>
        have hrest := ih (room - 1)
        rw [hfirst] at hrest
        exact List.not_mem_cons_of_ne_of_not_mem hb hrest

/-- Where more text is left, a piece without a newline has used the
room. -/
theorem length_firstLine_eq (hroom : 0 < room) (hleft : (firstLine room text).2 ≠ [])
    (hnewline : Byte.newline ∉ (firstLine room text).1) :
    (firstLine room text).1.length = room := by
  induction text generalizing room with
  | nil => exact absurd rfl hleft
  | cons b rest ih =>
    rw [firstLine] at hleft hnewline ⊢
    split at hleft
    · rename_i hstop
      rw [if_pos hstop] at hnewline ⊢
      have hb : b ≠ Byte.newline := fun h => hnewline (List.mem_singleton.mpr h.symm)
      have hlast : room ≤ 1 := hstop.resolve_left hb
      rw [List.length_singleton]
      omega
    · rename_i hgo
      rw [if_neg hgo] at hnewline ⊢
      have hrest := ih (by omega) hleft fun h => hnewline (List.mem_cons_of_mem b h)
      rw [List.length_cons, hrest]
      omega

theorem pieces_nil (limit : Nat) : pieces limit [] = [] := by rw [pieces]

theorem pieces_of_ne_nil (limit : Nat) (htext : text ≠ []) :
    pieces limit text = (firstLine (max limit 1) text).1 ::
      pieces limit (firstLine (max limit 1) text).2 := by
  obtain ⟨b, rest, rfl⟩ := List.exists_cons_of_ne_nil htext
  rw [pieces]

/-- **The pieces divide the text.** -/
theorem divided_pieces (limit : Nat) (text : Bytes) : Divided limit text (pieces limit text) := by
  fun_induction pieces limit text with
  | case1 =>
    have hnone {P : Bytes → Prop} : ∀ line ∈ ([] : List Bytes), P line := List.forall_mem_nil _
    exact ⟨hnone, rfl, hnone, hnone, hnone⟩
  | case2 b rest ih =>
    have hlimit : 0 < max limit 1 := by omega
    refine ⟨?_, ?_, ?_, ?_, ?_⟩
    · exact List.forall_mem_cons.mpr ⟨firstLine_cons_ne_nil _ b rest, ih.nonempty⟩
    · rw [List.flatten_cons, ih.whole, firstLine_append_rest]
    · exact List.forall_mem_cons.mpr ⟨newline_not_mem_dropLast_firstLine _ _, ih.newline⟩
    · exact List.forall_mem_cons.mpr ⟨length_firstLine_le hlimit _, ih.within⟩
    · by_cases hleft : (firstLine (max limit 1) (b :: rest)).2 = []
      · rw [hleft, pieces_nil]
        exact List.forall_mem_nil _
      · have hmore : pieces limit (firstLine (max limit 1) (b :: rest)).2 ≠ [] := by
          rw [pieces_of_ne_nil limit hleft]
          exact List.cons_ne_nil _ _
        rw [List.dropLast_cons_of_ne_nil hmore]
        exact List.forall_mem_cons.mpr
          ⟨fun hnewline => length_firstLine_eq hlimit hleft hnewline, ih.full⟩

/-- A piece that ends with its newline, with its room or with the text is
what is cut off first. -/
theorem firstLine_append_of_ends {line : Bytes} (more : Bytes) (hline : line ≠ [])
    (hnewline : Byte.newline ∉ line.dropLast) (hroom : line.length ≤ room)
    (hends : more ≠ [] → Byte.newline ∉ line → line.length = room) :
    firstLine room (line ++ more) = (line, more) := by
  induction line generalizing room with
  | nil => exact absurd rfl hline
  | cons b rest ih =>
    rw [List.cons_append, firstLine]
    by_cases hlast : rest = []
    · subst hlast
      by_cases hstop : b = Byte.newline ∨ room ≤ 1
      · rw [if_pos hstop, List.nil_append]
      · obtain ⟨hb, hlong⟩ := not_or.mp hstop
        cases more with
        | nil => rw [if_neg hstop]; rfl
        | cons c more =>
          have hroom' := hends (List.cons_ne_nil c more) fun h => hb (List.mem_singleton.mp h).symm
          rw [List.length_singleton] at hroom'
          omega
    · rw [List.dropLast_cons_of_ne_nil hlast] at hnewline
      have hb : b ≠ Byte.newline := fun h => hnewline (h ▸ List.mem_cons_self)
      have hlength := List.length_pos_iff.mpr hlast
      rw [List.length_cons] at hroom hends
      rw [if_neg (not_or.mpr ⟨hb, by omega⟩)]
      have hrest := @ih (room - 1) hlast (fun h => hnewline (List.mem_cons_of_mem b h))
        (by omega) fun hmore h => by
          have := hends hmore (List.not_mem_cons_of_ne_of_not_mem hb.symm h)
          omega
      rw [hrest]

/-- **Nothing else divides it.** -/
theorem Divided.eq_pieces {lines : List Bytes} (hlines : Divided limit text lines) :
    lines = pieces limit text := by
  induction lines generalizing text with
  | nil => rw [← hlines.whole, List.flatten_nil, pieces_nil]
  | cons line lines ih =>
    obtain ⟨hne, hothers⟩ := List.forall_mem_cons.mp hlines.nonempty
    obtain ⟨hnewline, hnewlines⟩ := List.forall_mem_cons.mp hlines.newline
    obtain ⟨hwithin, hwithins⟩ := List.forall_mem_cons.mp hlines.within
    have hends : lines.flatten ≠ [] → Byte.newline ∉ line → line.length = max limit 1 := by
      intro hmore
      have hlines' : lines ≠ [] := fun h => hmore (by rw [h, List.flatten_nil])
      refine hlines.full line ?_
      rw [List.dropLast_cons_of_ne_nil hlines']
      exact List.mem_cons_self
    have hfull : ∀ other ∈ lines.dropLast, Byte.newline ∉ other → other.length = max limit 1 := by
      intro other hother
      have hlines' : lines ≠ [] := fun h => by rw [h] at hother; cases hother
      refine hlines.full other ?_
      rw [List.dropLast_cons_of_ne_nil hlines']
      exact List.mem_cons_of_mem line hother
    have hrest : lines = pieces limit lines.flatten :=
      ih ⟨hothers, rfl, hnewlines, hwithins, hfull⟩
    have hcut := firstLine_append_of_ends lines.flatten hne hnewline hwithin hends
    have htext : text ≠ [] := by
      rw [← hlines.whole, List.flatten_cons]
      exact List.append_ne_nil_of_left_ne_nil hne _
    rw [pieces_of_ne_nil limit htext, ← hlines.whole, List.flatten_cons, hcut, ← hrest]

end Bytes

namespace Feed

/-! ## Buffers -/

/-- The chunks a buffer holds before each call for a line: those of the
whole text at first, and then of what the call before has left, cut up in
whatever way. -/
structure HandsOut (limit : Nat) (text : Bytes) (feeds : Nat → Feed) : Prop where
  begins : (feeds 0).flatten = text
  goesOn : ∀ n, (feeds (n + 1)).flatten = ((feeds n).readLine limit).2.flatten

variable {limit : Nat} {text : Bytes} {feeds : Nat → Feed}

/-- What is left in a buffer are the pieces it has not given. -/
theorem HandsOut.pieces_left (hfeeds : HandsOut limit text feeds) (n : Nat) :
    Bytes.pieces limit (feeds n).flatten = (Bytes.pieces limit text).drop n := by
  induction n with
  | zero => rw [hfeeds.begins, List.drop_zero]
  | succ n ih =>
    have hrest : ((feeds n).readLine limit).2.flatten =
        (Bytes.firstLine (max limit 1) (feeds n).flatten).2 :=
      congrArg Prod.snd (Feed.readLine_flatten limit (feeds n))
    rw [hfeeds.goesOn, hrest, ← List.drop_drop, ← ih]
    by_cases hleft : (feeds n).flatten = []
    · rw [hleft]
      show Bytes.pieces limit [] = (Bytes.pieces limit []).drop 1
      rw [Bytes.pieces_nil, List.drop_nil]
    · rw [Bytes.pieces_of_ne_nil limit hleft, List.drop_succ_cons, List.drop_zero]

/-- **Buffers give the pieces** of the text, and then the empty line for
ever. -/
theorem HandsOut.readLine_eq (hfeeds : HandsOut limit text feeds) (n : Nat) :
    ((feeds n).readLine limit).1 = ((Bytes.pieces limit text)[n]?).getD [] := by
  have hline : ((feeds n).readLine limit).1 =
      (Bytes.firstLine (max limit 1) (feeds n).flatten).1 :=
    congrArg Prod.fst (Feed.readLine_flatten limit (feeds n))
  have hget : (Bytes.pieces limit text)[n]? = (Bytes.pieces limit (feeds n).flatten)[0]? := by
    rw [hfeeds.pieces_left n, List.getElem?_drop, Nat.add_zero]
  rw [hline, hget]
  by_cases hleft : (feeds n).flatten = []
  · rw [hleft, Bytes.pieces_nil]
    rfl
  · rw [Bytes.pieces_of_ne_nil limit hleft]
    rfl

end Feed

namespace Source

/-! ## Sources -/

/-- A source after a number of fetches. -/
def afterFetches (limit : Nat) (s : Source) : Nat → Source
  | 0 => s
  | n + 1 => ((s.afterFetches limit n).fetch limit).2

variable {limit : Nat} {s : Source}

theorem reliable_afterFetches (hs : s.Reliable) (n : Nat) : (s.afterFetches limit n).Reliable := by
  induction n with
  | zero => exact hs
  | succ n ih =>
    obtain ⟨s', hfetch, -, hs'⟩ := fetch_of_reliable limit ih
    rw [afterFetches, hfetch]
    exact hs'

theorem fetch_of_never_failing (hs : s.Reliable) :
    s.fetch limit = (.ok (s.pending.readLine limit).1,
      { s with fetches := s.fetches + 1, pending := (s.pending.readLine limit).2 }) := by
  rw [fetch, hs.fetch]

/-- A source is a buffer that keeps its chunks. -/
theorem handsOut_afterFetches (hs : s.Reliable) :
    Feed.HandsOut limit s.pending.flatten fun n => (s.afterFetches limit n).pending where
  begins := rfl
  goesOn n := by rw [afterFetches, fetch_of_never_failing (reliable_afterFetches hs n)]

/-- **A source that never fails gives the pieces** of what it has to
read. -/
theorem fetch_afterFetches (limit : Nat) (hs : s.Reliable) (n : Nat) :
    ((s.afterFetches limit n).fetch limit).1 =
      .ok (((Bytes.pieces limit s.pending.flatten)[n]?).getD []) := by
  rw [fetch_of_never_failing (reliable_afterFetches hs n)]
  exact congrArg Except.ok ((handsOut_afterFetches hs).readLine_eq n)

end Source

/-- The chunks of a file make up the file. -/
theorem Feed.flatten_ofBytes (last : Nat) (contents : Bytes) :
    (Feed.ofBytes last contents).flatten = contents := by
  fun_induction Feed.ofBytes last contents with
  | case1 => rfl
  | case2 b rest ih => rw [List.flatten_cons, ih, List.cons_append, List.take_append_drop]

theorem Source.reliable_ofFile (contents : Bytes) : (Source.ofFile contents).Reliable :=
  ⟨fun _ => rfl, fun _ => rfl⟩

/-- **Lines do not depend on the buffer.** Whatever chunks a text arrives
in, its lines are its pieces, in order, and from then on the empty line;
a text in memory, a file and a file found on a disk supply the same
ones. -/
theorem readLine_eq_pieces (limit : Nat) (contents : Bytes) :
    Bytes.Divided limit contents (Bytes.pieces limit contents) ∧
      (∀ feeds : Nat → Feed, Feed.HandsOut limit contents feeds →
        ∀ n, ((feeds n).readLine limit).1 = ((Bytes.pieces limit contents)[n]?).getD []) ∧
      (∀ source ∈ [Source.ofBytes contents, Source.ofFile contents], ∀ n,
        ((source.afterFetches limit n).fetch limit).1 =
          .ok (((Bytes.pieces limit contents)[n]?).getD [])) ∧
      ∀ (disk : Disk) (path : String), disk.find path = .ok (.file contents) →
        ∃ source, disk.openSource path = .ok source ∧ ∀ n,
          ((source.afterFetches limit n).fetch limit).1 =
            .ok (((Bytes.pieces limit contents)[n]?).getD []) := by
  have hbytes (n : Nat) := Source.fetch_afterFetches limit
    (Source.reliable_ofBytes contents) n
  have hfile (n : Nat) := Source.fetch_afterFetches limit
    (Source.reliable_ofFile contents) n
  have hmemory : (Source.ofBytes contents).pending.flatten = contents := List.flatten_singleton
  have hchunks : (Source.ofFile contents).pending.flatten = contents :=
    Feed.flatten_ofBytes 8191 contents
  rw [hmemory] at hbytes
  rw [hchunks] at hfile
  refine ⟨Bytes.divided_pieces limit contents, fun feeds hfeeds => hfeeds.readLine_eq, ?_, ?_⟩
  · intro source hsource
    rcases List.mem_cons.mp hsource with rfl | hlast
    · exact hbytes
    · rw [List.mem_singleton.mp hlast]
      exact hfile
  · intro disk path hfind
    refine ⟨Source.ofFile contents, ?_, hfile⟩
    rw [Disk.openSource, hfind]
    rfl

end BasicLexer
