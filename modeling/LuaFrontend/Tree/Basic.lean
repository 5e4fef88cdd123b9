import LuaFrontend.Operator
import LuaFrontend.Token.Basic

set_option autoImplicit false

namespace LuaFrontend

/-- A name and where it stands. -/
structure Identifier where
  name : String
  span : Span
deriving DecidableEq

def Identifier.ofToken (t : Token) : Identifier := ⟨t.text, t.span⟩

/-- What a literal stands for. Numbers and strings are left as they are spelled. -/
inductive LiteralKind where
  | nil
  | boolean (value : Bool)
  | number
  | string
  | vararg
deriving DecidableEq

/-- A literal as it is spelled. -/
structure Literal where
  kind : LiteralKind
  raw : String
  span : Span
deriving DecidableEq

/-- The literal that a token is, if it is one. -/
def Literal.ofToken? (t : Token) : Option Literal :=
  match t.kind with
  | .nil => some ⟨.nil, t.text, t.span⟩
  | .boolean => some ⟨.boolean (t.text == "true"), t.text, t.span⟩
  | .number => some ⟨.number, t.text, t.span⟩
  | .string => some ⟨.string, t.text, t.span⟩
  | .vararg => some ⟨.vararg, t.text, t.span⟩
  | _ => none

/-- A comment as it is spelled. -/
structure Comment where
  raw : String
  span : Span
deriving DecidableEq

def Comment.ofToken (t : Token) : Comment := ⟨t.text, t.span⟩

/-- What a function statement defines: `root.a.b` or `root.a.b:method`. -/
structure FunctionName where
  root : Identifier
  fields : List Identifier
  method : Option Identifier
deriving DecidableEq

mutual

inductive Expression where
  | literal (value : Literal)
  | name (id : Identifier)
  /-- In parentheses. -/
  | group (inner : Expression)
  | unary (operator : UnaryOperator) (operand : Expression)
  | binary (operator : BinaryOperator) (left right : Expression)
  /-- `base[key]` -/
  | index (base key : Expression)
  /-- `base.field` -/
  | member (base : Expression) (field : Identifier)
  | call (callee : Expression) (arguments : Arguments)
  /-- `object:method` with arguments. -/
  | methodCall (object : Expression) (method : Identifier) (arguments : Arguments)
  | table (fields : List TableField)
  | function (value : FunctionBody)

/-- A list in parentheses, or a single table or string without them. -/
inductive Arguments where
  | list (values : List Expression)
  | table (fields : List TableField)
  | string (value : Literal)

inductive TableField where
  | value (value : Expression)
  /-- `[key] = value` -/
  | keyed (key value : Expression)
  /-- `name = value` -/
  | named (name : Identifier) (value : Expression)

/-- Parameters, whether `...` follows them, and the block that is run. -/
inductive FunctionBody where
  | mk (parameters : List Identifier) (isVararg : Bool) (block : List Statement)

/-- A condition and the block that it guards. -/
inductive Clause where
  | mk (condition : Expression) (block : List Statement)

inductive Statement where
  | localVariables (names : List Identifier) (values : List Expression)
  | assignment (targets values : List Expression)
  | call (expression : Expression)
  | conditional (clauses : List Clause) (otherwise : Option (List Statement))
  | whileLoop (condition : Expression) (block : List Statement)
  | repeatLoop (block : List Statement) (condition : Expression)
  | numericFor (counter : Identifier) (first last : Expression) (step : Option Expression)
    (block : List Statement)
  | genericFor (names : List Identifier) (iterators : List Expression) (block : List Statement)
  | doBlock (block : List Statement)
  | returning (values : List Expression)
  | breakLoop
  | goto (label : Identifier)
  | label (name : Identifier)
  | localFunction (name : Identifier) (value : FunctionBody)
  | function (name : FunctionName) (value : FunctionBody)

end

abbrev Block := List Statement

namespace Expression

def isCall : Expression → Bool
  | call .. | methodCall .. => true
  | _ => false

/-- May stand on the left of an assignment. -/
def isAssignable : Expression → Bool
  | name _ | index .. | member .. => true
  | _ => false

end Expression

/-- A whole program, and the comments in its text. -/
structure Chunk where
  block : Block
  comments : List Comment

end LuaFrontend
