import LuaFrontend.Grammar.Parser

set_option autoImplicit false

namespace LuaFrontend.Grammar

open LuaFrontend.Parser

def isOperatorKind (kind : TokenKind) : Bool := kind == .symbol || kind == .logicalOperator

/-- The operator that a token is in front of an operand. -/
def unaryOperator? (token : Token) : Option UnaryOperator :=
  if isOperatorKind token.kind then UnaryOperator.ofText? token.text else none

/-- The operator that a token is between two operands. -/
def binaryOperator? (token : Token) : Option BinaryOperator :=
  if isOperatorKind token.kind then BinaryOperator.ofText? token.text else none

/-- An expression, if one begins here. -/
def expression? (below : Below) : Parser (Option Expression) :=
  production .expression (below (.operand 0))

def expression (below : Below) : Parser Expression := required .expression (expression? below)

def expressionList (below : Below) : Parser (List Expression) := commaSeparated (expression below)

/-- The parameters that have been read. -/
structure Parameters where
  names : List Identifier := []
  isVararg : Bool := false
  /-- Another parameter has to follow. -/
  isOpen : Bool := true

/-- One more parameter. Nothing follows `...`, and a name is followed by more if by a comma. -/
def parameter (list : Parameters) : Parser (Option Parameters) := do
  if !list.isOpen then return none
  else if (← current).kind = .identifier then
    let name ← identifier
    return some { list with names := list.names ++ [name], isOpen := ← takes "," }
  else if ← Cursor.consume (.kind .vararg) then
    return some { list with isVararg := true, isOpen := false }
  else expected .parameter

/-- The parameters in parentheses. -/
def parameters : Parser Parameters := do
  expect "("
  if ← takes ")" then return {}
  else
    let list ← grow parameter {}
    expect ")"
    return list

/-- A function from its parameters to its `end`. -/
def functionBody (below : Below) : Parser FunctionBody :=
  production .functionBody do
    let list ← parameters
    let block ← below .block
    expect "end"
    return .mk list.names list.isVararg block

/-- Whether a name stands here and an equals sign follows it. -/
def isKey : Parser Bool := do
  if (← current).kind = .identifier then Cursor.nextMatchesAny [.text "="] else return false

/-- A field, if one begins here. -/
def field? (below : Below) : Parser (Option TableField) := do
  if ← takes "[" then
    let key ← expression below
    expect "]"
    expect "="
    return some (.keyed key (← expression below))
  else if ← isKey then
    let name := Identifier.ofToken (← current)
    discard (Cursor.consumeNext (.text "="))
    return some (.named name (← expression below))
  else return (← expression? below).map .value

/-- Takes a comma or a semicolon. -/
def separator : Parser Bool := do
  if (← get).matchesAny [.text ",", .text ";"] then
    Cursor.advance
    return true
  else return false

/-- Fields with separators between them. One more separator may come last. -/
def fields (below : Below) : Parser (List TableField) := do
  match ← field? below with
  | some first => return first :: (← many do if ← separator then field? below else return none)
  | none => return []

/-- A table, one level down from its surroundings. -/
def table (below : Below) : Parser (List TableField) :=
  production .table do
    expect "\x7b"
    let fields ← fields below
    expect "\x7d"
    return fields

/-- The arguments between parentheses, one level down from the call. -/
def arguments (below : Below) : Parser (List Expression) := do
  if (← get).hasText ")" then return [] else expressionList below

/-- The arguments of a call, if they begin here. -/
def callArguments? (below : Below) : Parser (Option Arguments) := do
  let token ← current
  if ← takes "(" then
    let values ← below .arguments
    expect ")"
    return some (.list values)
  else if (← get).hasText "\x7b" then return some (.table (← below .table))
  else if token.kind = .string then
    Cursor.advance
    return some (.string ⟨.string, token.text, token.span⟩)
  else return none

/-- What a suffixed expression begins with: a name or a group. -/
def base? (below : Below) : Parser (Option Expression) := do
  if (← current).kind = .identifier then return some (.name (← identifier))
  else if ← takes "(" then
    let inner ← expression below
    expect ")"
    return some (.group inner)
  else return none

/-- The expression with one suffix more, if one follows. -/
def suffix? (below : Below) (base : Expression) : Parser (Option Expression) := do
  if ← takes "[" then
    let key ← expression below
    expect "]"
    return some (.index base key)
  else if ← takes "." then return some (.member base (← identifier))
  else if ← takes ":" then
    let method ← identifier
    return some (.methodCall base method (← required .arguments (callArguments? below)))
  else return (← callArguments? below).map (.call base)

/-- A name or a group with its suffixes, one level down from its surroundings. -/
def suffixed (below : Below) : Parser (Option Expression) :=
  production .suffixed do
    match ← base? below with
    | some base => return some (← grow (suffix? below) base)
    | none => return none

/-- An operand without operators. -/
def primary? (below : Below) : Parser (Option Expression) :=
  production .primary do
    match Literal.ofToken? (← current) with
    | some value =>
      Cursor.advance
      return some (.literal value)
    | none =>
      if ← takes "function" then return some (.function (← functionBody below))
      else if (← get).hasText "\x7b" then return some (.table (← below .table))
      else below .suffixed

/-- An operand with the operator in front of it, if there is one. -/
def prefixed? (below : Below) : Parser (Option Expression) := do
  match unaryOperator? (← current) with
  | some operator =>
    Cursor.advance
    let operand ← required .expression (below (.operand UnaryOperator.precedence))
    return some (.unary operator operand)
  | none => primary? below

/-- The left operand joined with the right one, if an operator above the limit follows. -/
def joined? (below : Below) (limit : Nat) (left : Expression) : Parser (Option Expression) := do
  match binaryOperator? (← current) with
  | some operator =>
    if operator.precedence ≤ limit then return none
    else
      Cursor.advance
      let right ← required .expression (below (.operand operator.rightLimit))
      return some (.binary operator left right)
  | none => return none

/-- An operand with all operators that bind tighter than the limit. -/
def operand (below : Below) (limit : Nat) : Parser (Option Expression) := do
  match ← prefixed? below with
  | some left => return some (← grow (joined? below limit) left)
  | none => return none

end LuaFrontend.Grammar
