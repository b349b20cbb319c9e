import BasicLexer.Diagnostic.Message
import BasicLexer.Input.Fault
import BasicLexer.Token.Kind

/-!
# Diagnostics — the causes

What a pass over a program can fail of. A cause says what happened; the
message and the arguments that tell it are read off it here and nowhere
else.
-/

namespace BasicLexer

/-- A reason for a pass to fail. -/
inductive Cause where
  | identifierTooLong
  | stringTooLong
  | unterminatedString
  | expectingClosingQuote
  | expectingToken (required found : Kind)
  | numberOutOfRange (digits : String)
  /-- A source failed: an include file, by name, or the program. -/
  | readError (file : Option String) (fault : Fault)
  | includeNotFound (name : String)
  /-- A reason that a client of the scanner gives in its own words. -/
  | stated (message : Message) (arguments : List String)
  deriving DecidableEq, Repr

namespace Cause

/-- How reports call a source. -/
def sourceLabel : Option String → String
  | some name => "'" ++ name ++ "'"
  | none => "the program source"

/-- The message a cause is told by. -/
def message : Cause → Message
  | identifierTooLong => .identifierTooLong
  | stringTooLong => .stringTooLong
  | unterminatedString => .unterminatedString
  | expectingClosingQuote => .expectingClosingQuote
  | expectingToken .. => .expectingToken
  | numberOutOfRange _ => .numberOutOfRange
  | readError .. => .readError
  | includeNotFound _ => .includeNotFound
  | stated message _ => message

/-- The arguments that fill the message's template. -/
def arguments : Cause → List String
  | expectingToken required found => [required.name, found.name]
  | numberOutOfRange digits => [digits]
  | readError file fault => [sourceLabel file, fault.message]
  | includeNotFound name => [name]
  | stated _ arguments => arguments
  | _ => []

/-- The code of a cause's message. -/
def code (c : Cause) : Nat := c.message.code

/-- The text of a cause. -/
def text (c : Cause) : String := Message.format c.message.template c.arguments

end Cause

end BasicLexer
