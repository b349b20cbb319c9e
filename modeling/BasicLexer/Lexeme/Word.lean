import BasicLexer.Keyword
import BasicLexer.Line.Reader
import BasicLexer.Options
import BasicLexer.Token

/-!
# Lexemes — words

A word is a run of letters, digits and underscores: a keyword where it
spells one, an identifier elsewhere. After a keyword that opens compounds
the next word is looked at too; if the two make no compound, the head
goes back to the end of the first as if it had never looked. A word that
is too long is an error even where it was only looked at.
-/

namespace BasicLexer

namespace Word

/-- Whether a byte continues a word. -/
def continues (b : Byte) : Option Byte := if b.isWord then some b else none

/-- Read on through a word of which `room` more bytes are admitted. The
word so far is held in reverse. -/
def tailFrom (word : Bytes) (room : Nat) (h : Head) :
    EStateM.Result (Failure Cause) Head Bytes :=
  match _hrun : Reader.nextIf continues h with
  | .ok (some b) h' =>
    match room with
    | 0 => .error (.reported .identifierTooLong) h'
    | room + 1 => tailFrom (b :: word) room h'
  | .ok none h' => .ok word.reverse h'
  | .error failure h' => .error failure h'
  termination_by h.ahead.length
  decreasing_by
    have := Reader.length_ahead_nextIf _hrun
    simp only [Option.isSome_some, if_true] at this
    omega

/-- The word that begins with a byte that was read. Only bytes after the
first are held against the limit. -/
def read (options : Options) (first : Byte) : Reader Bytes :=
  tailFrom [first] (options.maxToken - 1)

/-- The keyword a word spells, if it spells one. -/
def keyword? (word : Bytes) : Option Keyword := Keyword.ofWord? word.text

/-- The word that makes a compound with the keyword before it, if the
next word on the line does. -/
def readSecond (options : Options) (first : Keyword) : Reader (Option (Compound × Bytes)) := do
  match ← Reader.skipBlanks with
  | none => return none
  | some b =>
    if b.isWord then
      let word ← read options b
      return (keyword? word).bind fun second =>
        (Compound.ofWords? first second).map fun compound => (compound, word)
    else return none

/-- Look for a compound, and go back to where the head was if there is
none. -/
def readCompound (options : Options) (first : Keyword) : Reader (Option (Compound × Bytes)) := do
  let mark ← get
  match ← readSecond options first with
  | some found => return some found
  | none => set mark; return none

/-- The token of a word that begins with a byte that was read. -/
def readToken (options : Options) (start : Nat) (first : Byte) : Reader Token := do
  let word ← read options first
  match keyword? word with
  | none => return { kind := .identifier, text := word.text, offset := start }
  | some k =>
    if k.opensCompound then
      match ← readCompound options k with
      | some (compound, second) =>
        return { kind := .compound compound, text := word.text ++ " " ++ second.text,
                 offset := start }
      | none => return { kind := .keyword k, text := word.text, offset := start }
    else return { kind := .keyword k, text := word.text, offset := start }

theorem keeps_read (options : Options) (first : Byte) : (read options first).Keeps := by
  intro h a h' hrun
  unfold read at hrun
  generalize [first] = word at hrun
  generalize options.maxToken - 1 = room at hrun
  fun_induction tailFrom word room h with
  | case1 => simp at hrun
  | case2 word h b h₁ hstep room ih =>
    have := Reader.length_ahead_nextIf hstep
    have := ih hrun
    omega
  | case3 word room h h₁ hstep =>
    have := Reader.length_ahead_nextIf hstep
    simp only [EStateM.Result.ok.injEq] at hrun
    obtain ⟨-, rfl⟩ := hrun
    omega
  | case4 => simp at hrun

theorem keeps_readSecond (options : Options) (first : Keyword) :
    (readSecond options first).Keeps := by
  refine Reader.Keeps.bind Reader.Keeps.skipBlanks fun b => ?_
  cases b with
  | none => exact Reader.Keeps.pure _
  | some b =>
    simp only
    split
    · exact Reader.Keeps.bind (keeps_read options b) fun word => Reader.Keeps.pure _
    · exact Reader.Keeps.pure _

/-- The lookahead for a compound ends where its second word does, or at
the head it started from. -/
theorem readCompound_apply (options : Options) (first : Keyword) (h : Head) :
    readCompound options first h =
      match readSecond options first h with
      | .ok (some found) h' => .ok (some found) h'
      | .ok none _ => .ok none h
      | .error failure h' => .error failure h' := by
  have hget (f : Head → Reader (Option (Compound × Bytes))) : (get >>= f) h = f h h := rfl
  rw [readCompound, hget]
  simp only [Bind.bind, EStateM.bind]
  cases readSecond options first h with
  | ok found h' => cases found <;> rfl
  | error failure h' => rfl

theorem keeps_readCompound (options : Options) (first : Keyword) :
    (readCompound options first).Keeps := by
  intro h a h' hrun
  have hkeeps := keeps_readSecond options first h
  rw [readCompound_apply] at hrun
  cases hsecond : readSecond options first h with
  | error failure h₁ =>
    rw [hsecond] at hrun
    cases hrun
  | ok found h₁ =>
    rw [hsecond] at hrun
    cases found with
    | none =>
      cases hrun
      exact Nat.le_refl _
    | some found =>
      cases hrun
      exact hkeeps _ _ hsecond

theorem keeps_readToken (options : Options) (start : Nat) (first : Byte) :
    (readToken options start first).Keeps := by
  refine Reader.Keeps.bind (keeps_read options first) fun word => ?_
  cases keyword? word with
  | none => exact Reader.Keeps.pure _
  | some k =>
    simp only
    split
    · refine Reader.Keeps.bind (keeps_readCompound options k) fun found => ?_
      cases found <;> exact Reader.Keeps.pure _
    · exact Reader.Keeps.pure _

end Word

end BasicLexer
