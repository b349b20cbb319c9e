import BasicLexer.Text.Byte

/-!
# Lines — seeing past comments

Two slashes hide the rest of a line, a slash and an asterisk hide
everything through the next asterisk and slash, on later lines too. What
a reader sees next on a line is the first byte that no comment hides.
-/

namespace BasicLexer

/-- What is to be seen of the rest of a line. -/
inductive Sight where
  /-- A byte, and how far into the rest it reaches. -/
  | byte (b : Byte) (reach : Nat)
  /-- Nothing: the line ends. -/
  | exhausted
  /-- Nothing: a comment hides the rest; a block comment stays open. -/
  | hidden (isOpen : Bool)
  deriving DecidableEq, Repr

namespace Sight

/-- What is to be seen of the rest of a line, of which `passed` bytes
were passed before, inside a block comment or not. A slash that begins
no comment is seen. -/
def ofRest : (inComment : Bool) → (passed : Nat) → Bytes → Sight
  | true, _, [] => .hidden true
  | true, _, [_] => .hidden true
  | true, passed, b :: c :: rest =>
    if b = Byte.asterisk ∧ c = Byte.slash then ofRest false (passed + 2) rest
    else ofRest true (passed + 1) (c :: rest)
  | false, _, [] => .exhausted
  | false, passed, [b] => .byte b (passed + 1)
  | false, passed, b :: c :: rest =>
    if b = Byte.slash ∧ c = Byte.slash then .hidden false
    else if b = Byte.slash ∧ c = Byte.asterisk then ofRest true (passed + 2) rest
    else .byte b (passed + 1)

/-- A byte that is seen lies ahead and within the rest. -/
theorem reach_ofRest {inComment : Bool} {passed : Nat} {rest : Bytes} {b : Byte} {n : Nat}
    (h : ofRest inComment passed rest = .byte b n) : passed < n ∧ n ≤ passed + rest.length := by
  fun_induction ofRest inComment passed rest with
  | case1 | case2 | case5 | case7 => simp at h
  | case3 passed _ _ rest _ ih | case4 passed _ _ rest _ ih | case8 passed _ _ rest _ _ ih =>
    have := ih h
    simp only [List.length_cons] at *
    omega
  | case6 | case9 =>
    simp only [byte.injEq] at h
    simp only [List.length_cons]
    omega

/-- A byte that opens no comment with the byte after it is seen. -/
theorem ofRest_of_not_opens (passed : Nat) {b : Byte} {rest : Bytes}
    (hb : b ≠ Byte.slash ∨ ∀ c ∈ rest.head?, c ≠ Byte.slash ∧ c ≠ Byte.asterisk) :
    ofRest false passed (b :: rest) = .byte b (passed + 1) := by
  cases rest with
  | nil => rfl
  | cons c rest =>
    have hc (h : b = Byte.slash) : c ≠ Byte.slash ∧ c ≠ Byte.asterisk :=
      hb.elim (absurd h) fun hc => hc c rfl
    rw [ofRest, if_neg fun h => (hc h.1).1 h.2, if_neg fun h => (hc h.1).2 h.2]

end Sight

end BasicLexer
