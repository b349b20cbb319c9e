import BasicLexer.Line.Reader
import BasicLexer.Options

/-!
# Lexemes — numbers

A number is written in base ten, or in base sixteen or two after a
marker, with underscores anywhere between its digits. Its value is a
machine word of 32 bits read as a signed number. A number written in base
ten fits if it is no larger than the largest signed word, the others may
use the sign bit.
-/

namespace BasicLexer

/-- The bases a number can be written in. -/
inductive Radix where
  | binary
  | decimal
  | hex
  deriving DecidableEq, Repr

namespace Radix

/-- The base itself. -/
def base : Radix → Nat
  | binary => 2
  | decimal => 10
  | hex => 16

/-- Whether a byte is a digit of the base. -/
def isDigit : Radix → Byte → Bool
  | binary => Byte.isBinaryDigit
  | decimal => Byte.isDigit
  | hex => Byte.isHexDigit

/-- The base that a byte after a leading zero marks. -/
def ofMarker (b : Byte) : Option Radix :=
  if b = 120 ∨ b = 88 then some hex
  else if b = 98 ∨ b = 66 then some binary
  else none

end Radix

namespace Numeral

/-- A value built digit by digit: its low 32 bits, and whether anything
above them was lost. -/
structure Accumulated where
  word : UInt32 := 0
  lost : Bool := false
  deriving DecidableEq, Repr

/-- The value with one digit more at its end. -/
def Accumulated.push (radix : Radix) (acc : Accumulated) (digit : Byte) : Accumulated :=
  let value := acc.word.toNat * radix.base + digit.digitValue
  ⟨UInt32.ofNat value, acc.lost || UInt32.size ≤ value⟩

/-- The value of digits, the most significant first. -/
def accumulate (radix : Radix) (digits : Bytes) : Accumulated :=
  digits.foldl (Accumulated.push radix) {}

/-- Whether a value fits the machine word. -/
def Accumulated.fits (radix : Radix) (acc : Accumulated) : Bool :=
  !acc.lost && (radix ≠ .decimal || acc.word.toNat < UInt32.size / 2)

/-- Whether a byte may stand inside a number after its first digit or
its marker. -/
def continues (radix : Radix) (b : Byte) : Option Byte :=
  if radix.isDigit b ∨ b = Byte.underscore then some b else none

/-- Read on through the digits of a number, over underscores. The digits
read so far are held in reverse. -/
def digitsFrom (radix : Radix) (digits : Bytes) (h : Head) :
    EStateM.Result (Failure Cause) Head Bytes :=
  match _hrun : Reader.nextIf (continues radix) h with
  | .ok (some b) h' => digitsFrom radix (if b = Byte.underscore then digits else b :: digits) h'
  | .ok none h' => .ok digits.reverse h'
  | .error failure h' => .error failure h'
  termination_by h.ahead.length
  decreasing_by
    have := Reader.length_ahead_nextIf _hrun
    simp only [Option.isSome_some, if_true] at this
    omega

/-- Read on through the digits of a number that begins with the digits
given. -/
def digits (radix : Radix) (first : Bytes) : Reader Bytes := digitsFrom radix first.reverse

/-- The digits and the value of a number that begins with the digits
given. Where numbers out of range are refused, one that does not fit is
an error. -/
def read (options : Options) (radix : Radix) (first : Bytes) : Reader (Bytes × Int32) := do
  let digits ← digits radix first
  let value := accumulate radix digits
  if options.literalOverflow = .error ∧ value.fits radix = false then
    Reader.fail (.numberOutOfRange digits.text)
  else return (digits, value.word.toInt32)

theorem keeps_digits (radix : Radix) (first : Bytes) : (digits radix first).Keeps := by
  intro h a h' hrun
  unfold digits at hrun
  generalize first.reverse = taken at hrun
  fun_induction digitsFrom radix taken h with
  | case1 taken h b h₁ hstep ih =>
    have := Reader.length_ahead_nextIf hstep
    have := ih hrun
    omega
  | case2 taken h h₁ hstep =>
    have := Reader.length_ahead_nextIf hstep
    simp only [EStateM.Result.ok.injEq] at hrun
    obtain ⟨-, rfl⟩ := hrun
    omega
  | case3 => simp at hrun

theorem keeps_read (options : Options) (radix : Radix) (first : Bytes) :
    (read options radix first).Keeps := by
  refine Reader.Keeps.bind (keeps_digits radix first) fun digits => ?_
  dsimp only
  split
  · exact Reader.Keeps.fail _
  · exact Reader.Keeps.pure _

end Numeral

end BasicLexer
