import LuaFrontend.Lexeme.Read

set_option autoImplicit false

namespace LuaFrontend

/-- The common form of messages. -/
def located (position : Position) (cause near : String) : String :=
  s!"{position.render} {cause} near '{near}'"

/-- A lexeme with a fault: where it starts, and as much of it as was read. -/
structure LexError where
  fault : Fault
  start : Position
  near : String
deriving DecidableEq

namespace LexError

/-- Where reading stopped; for a character that begins nothing, where it stands. -/
def position (e : LexError) : Position :=
  match e.fault with
  | .unexpectedCharacter _ => e.start
  | _ => e.start.after e.near.toList

def cause (e : LexError) : String :=
  match e.fault with
  | .malformedNumber => "malformed number"
  | .unfinishedString => "unfinished string"
  | .unfinishedLongString => s!"unfinished long string (starting at line {e.start.line})"
  | .unfinishedLongComment => s!"unfinished long comment (starting at line {e.start.line})"
  | .invalidLongStringDelimiter => "invalid long string delimiter"
  | .unexpectedCharacter _ => "unexpected symbol"

def message (e : LexError) : String := located e.position e.cause e.near

end LexError

/-- What the grammar asks for at some place. -/
inductive Expectation where
  | text (s : String)
  | name
  | expression
  | parameter
  | arguments
deriving DecidableEq

def Expectation.describe : Expectation → String
  | text s => s!"'{s}'"
  | name => "<name>"
  | expression => "<expression>"
  | parameter => "<name> or '...'"
  | arguments => "function arguments"

/-- What can be wrong with a sequence of tokens. -/
inductive SyntaxFault where
  | expected (what : Expectation)
  | unexpected (kind : TokenKind) (text : String)
  | nestingTooDeep
deriving DecidableEq

/-- A fault at a token. It quotes that token, or the one behind it if that one is unexpected. -/
structure SyntaxError where
  fault : SyntaxFault
  position : Position
  near : String
deriving DecidableEq

namespace SyntaxError

def cause (e : SyntaxError) : String :=
  match e.fault with
  | .expected what => s!"expected {what.describe}"
  | .unexpected .endOfInput _ => "unexpected symbol"
  | .unexpected kind text => s!"unexpected {kind.describe} '{text}'"
  | .nestingTooDeep => "chunk has too many syntax levels"

def message (e : SyntaxError) : String := located e.position e.cause e.near

end SyntaxError

/-- Why a text is no program. -/
inductive Error where
  | lexical (e : LexError)
  | grammatical (e : SyntaxError)
deriving DecidableEq

namespace Error

def position : Error → Position
  | lexical e => e.position
  | grammatical e => e.position

def message : Error → String
  | lexical e => e.message
  | grammatical e => e.message

end Error
end LuaFrontend
