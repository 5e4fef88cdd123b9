import LuaFrontend.Grammar.Expression

set_option autoImplicit false

namespace LuaFrontend.Grammar

open LuaFrontend.Parser

/-- What the first token of a statement announces. -/
inductive Heading where
  | localDeclaration
  | conditional
  | function
  | whileLoop
  | forLoop
  | repeatLoop
  | doBlock
  | goto
  | breakLoop
  | label
  /-- The name `goto`, which is a jump only before another name. -/
  | gotoName
  | assignmentOrCall
deriving DecidableEq

def headings : List (String × Heading) :=
  [("local", .localDeclaration), ("if", .conditional), ("function", .function),
    ("while", .whileLoop), ("for", .forLoop), ("repeat", .repeatLoop), ("do", .doBlock),
    ("goto", .goto), ("break", .breakLoop)]

def Heading.ofToken (token : Token) : Heading :=
  match token.kind with
  | .keyword => (headings.lookup token.text).getD .assignmentOrCall
  | .symbol => if token.text = "::" then .label else .assignmentOrCall
  | .identifier => if token.text = "goto" then .gotoName else .assignmentOrCall
  | _ => .assignmentOrCall

/-- The token is neither the last one nor one that ends a block. -/
def isInBlock (token : Token) : Bool := !token.isEnd && !token.endsBlock

def localDeclaration (below : Below) : Parser Statement :=
  production .localDeclaration do
    Cursor.advance
    if ← takes "function" then
      let name ← identifier
      return .localFunction name (← functionBody below)
    else
      let names ← commaSeparated identifier
      let values ← behind "=" (expressionList below)
      return .localVariables names (values.getD [])

/-- A condition and its block, behind `if` or `elseif`. -/
def clause (below : Below) : Parser Clause := do
  Cursor.advance
  let condition ← expression below
  expect "then"
  return .mk condition (← below .block)

/-- A clause, if `elseif` begins one here. -/
def elseClause? (below : Below) : Parser (Option Clause) := do
  if (← current).isWord "elseif" then return some (← clause below) else return none

def conditional (below : Below) : Parser Statement :=
  production .conditional do
    let first ← clause below
    let others ← many (elseClause? below)
    let otherwise ← behind "else" (below .block)
    expect "end"
    return .conditional (first :: others) otherwise

def functionStatement (below : Below) : Parser Statement :=
  production .function do
    Cursor.advance
    let root ← identifier
    let fields ← many (behind "." identifier)
    let method ← behind ":" identifier
    return .function ⟨root, fields, method⟩ (← functionBody below)

/-- A block between `do` and `end`. -/
def enclosedBlock (below : Below) : Parser Block := do
  expect "do"
  let block ← below .block
  expect "end"
  return block

def whileLoop (below : Below) : Parser Statement :=
  production .whileLoop do
    Cursor.advance
    let condition ← expression below
    return .whileLoop condition (← enclosedBlock below)

/-- A loop over numbers if an equals sign follows its first variable. -/
def forLoop (below : Below) : Parser Statement :=
  production .forLoop do
    Cursor.advance
    let counter ← identifier
    if ← takes "=" then
      let first ← expression below
      expect ","
      let last ← expression below
      let step ← behind "," (expression below)
      return .numericFor counter first last step (← enclosedBlock below)
    else
      let others ← afterCommas identifier
      expect "in"
      let iterators ← expressionList below
      return .genericFor (counter :: others) iterators (← enclosedBlock below)

def repeatLoop (below : Below) : Parser Statement :=
  production .repeatLoop do
    Cursor.advance
    let block ← below .block
    expect "until"
    return .repeatLoop block (← expression below)

def doBlock (below : Below) : Parser Statement :=
  production .doBlock do return .doBlock (← enclosedBlock below)

def goto : Parser Statement :=
  production .goto do
    Cursor.advance
    return .goto (← identifier)

def label : Parser Statement :=
  production .label do
    Cursor.advance
    let name ← identifier
    expect "::"
    return .label name

/-- A suffixed expression, which has to stand here. -/
def target (below : Below) : Parser Expression := do
  match ← below .suffixed with
  | some target => return target
  | none => unexpected

/-- A suffixed expression alone is a call. Followed by a comma or an equals sign it is the first
target of an assignment. -/
def assignmentOrCall (below : Below) : Parser Statement :=
  production .assignmentOrCall do
    let first ← target below
    if (← get).matchesAny [.text ",", .text "="] then
      let targets := first :: (← afterCommas (target below))
      if targets.all (·.isAssignable) then
        expect "="
        return .assignment targets (← expressionList below)
      else unexpected
    else if first.isCall then return .call first
    else unexpected

/-- Whether a name follows, so that the name `goto` is a jump. -/
def isJump : Parser Bool := do
  if (← get).dialect.labels then Cursor.nextMatchesAny [.kind .identifier] else return false

def statement (below : Below) : Parser Statement :=
  production .statement do
    match Heading.ofToken (← current) with
    | .localDeclaration => localDeclaration below
    | .conditional => conditional below
    | .function => functionStatement below
    | .whileLoop => whileLoop below
    | .forLoop => forLoop below
    | .repeatLoop => repeatLoop below
    | .doBlock => doBlock below
    | .goto => goto
    | .breakLoop =>
      Cursor.advance
      return .breakLoop
    | .label => label
    | .gotoName => if ← isJump then goto else assignmentOrCall below
    | .assignmentOrCall => assignmentOrCall below

/-- The values of a `return`. A block that ends here or a semicolon leaves it without. -/
def returnedValues (below : Below) : Parser (List Expression) := do
  if isInBlock (← current) && !(← get).hasText ";" then expressionList below else return []

def returning (below : Below) : Parser Statement :=
  production .returning do
    Cursor.advance
    let values ← returnedValues below
    discard (takes ";")
    return .returning values

/-- The next statement that is no `return`, behind semicolons. -/
def statement? (below : Below) : Parser (Option Statement) := do
  discard (many (behind ";" (pure ())))
  let token ← current
  if isInBlock token && !token.isWord "return" then return some (← statement below)
  else return none

/-- Statements up to the token that ends the block, one level down from it. A `return` can only
come last. -/
def block (below : Below) : Parser Block :=
  production .block do
    let statements ← many (statement? below)
    if (← current).isWord "return" then return statements ++ [← returning below]
    else return statements

end LuaFrontend.Grammar
