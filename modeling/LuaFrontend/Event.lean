import LuaFrontend.Token.Basic

set_option autoImplicit false

namespace LuaFrontend

/-- The rules of the grammar that are reported. -/
inductive Production where
  | chunk
  | block
  | statement
  | returning
  | label
  | goto
  | doBlock
  | whileLoop
  | repeatLoop
  | conditional
  | forLoop
  | localDeclaration
  | function
  | assignmentOrCall
  | functionBody
  | table
  | expression
  | primary
  | suffixed
deriving DecidableEq

/-- The name under which a production is reported. -/
def Production.name : Production → String
  | chunk => "chunk"
  | block => "block"
  | statement => "statement"
  | returning => "return"
  | label => "label"
  | goto => "goto"
  | doBlock => "do"
  | whileLoop => "while"
  | repeatLoop => "repeat"
  | conditional => "if"
  | forLoop => "for"
  | localDeclaration => "local"
  | function => "function"
  | assignmentOrCall => "assignment_or_call"
  | functionBody => "function_body"
  | table => "table"
  | expression => "expression"
  | primary => "primary"
  | suffixed => "prefix"

/-- A token is reported when it is read, comments included. -/
inductive Event where
  | token (t : Token)
  | enter (p : Production)
  | exit (p : Production)
deriving DecidableEq

namespace Event

/-- One line of a trace. -/
def describe : Event → String
  | token t => s!"token {t.near}"
  | enter p => s!"enter {p.name}"
  | exit p => s!"exit {p.name}"

/-- A value in a log record. -/
inductive Value where
  | text (s : String)
  | number (n : Nat)
deriving DecidableEq

/-- The named values of a log record, in the order of their names. -/
def fields : Event → List (String × Value)
  | token t =>
    [("kind", .text t.kind.describe), ("line", .number t.start.line), ("message", .text "token"),
      ("text", .text t.text)]
  | enter p => [("message", .text "enter"), ("production", .text p.name)]
  | exit p => [("message", .text "exit"), ("production", .text p.name)]

end Event
end LuaFrontend
