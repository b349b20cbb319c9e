/-!
# Options of a scan

The limits a scan keeps to, where it looks for include files, and what
it makes of numbers that do not fit the machine word.
-/

namespace BasicLexer

/-- What becomes of a number that does not fit the machine word: its low
bits are kept, or it is an error. -/
inductive Overflow where
  | wrap
  | error
  deriving DecidableEq, Repr

namespace Overflow

/-- The name of a policy, as options write it. -/
def name : Overflow → String
  | wrap => "wrap"
  | error => "error"

/-- The policy with a name. -/
def ofName? (s : String) : Option Overflow := [wrap, error].find? fun p => p.name = s

end Overflow

/-- The limits where none are given are words. -/
theorem Options.defaultToken_lt : 32 < UInt64.size := by decide

theorem Options.defaultLine_lt : 128 < UInt64.size := by decide

/-- The options of a scan: the longest word or string literal, the
longest line, the directories searched for include files, and the policy
for numbers out of range. The limits are words of 64 bits. -/
structure Options where
  maxToken : Nat := 32
  maxLine : Nat := 128
  includePaths : List String := []
  literalOverflow : Overflow := .wrap
  maxToken_lt : maxToken < UInt64.size := by
    first | exact Options.defaultToken_lt | decide
  maxLine_lt : maxLine < UInt64.size := by
    first | exact Options.defaultLine_lt | decide
  deriving DecidableEq, Repr

namespace Options

/-- The options with one more directory to search, after the others. -/
def addIncludePath (o : Options) (directory : String) : Options :=
  { o with includePaths := o.includePaths ++ [directory] }

/-- The options with another policy for numbers out of range. -/
def setLiteralOverflow (o : Options) (policy : Overflow) : Options :=
  { o with literalOverflow := policy }

end Options

end BasicLexer
