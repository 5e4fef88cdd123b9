import LuaFrontend.Proofs.PrintedForm
import LuaFrontend.Tree.Outline

set_option autoImplicit false

namespace LuaFrontend

namespace BinaryOperator

/-- Without parentheses, the inner operator can stand on the right of this one. -/
def AllowsRight (operator inner : BinaryOperator) : Prop :=
  operator.precedence < inner.precedence ∨
    inner.precedence = operator.precedence ∧ operator.isRightAssociative = true

/-- Without parentheses, the inner operator can stand on the left of this one. -/
def AllowsLeft (operator inner : BinaryOperator) : Prop :=
  operator.precedence < inner.precedence ∨
    inner.precedence = operator.precedence ∧ inner.isRightAssociative = false

end BinaryOperator

namespace Outline

/-- The node on top. -/
def head : Outline → Node
  | node head _ => head

mutual

/-- Every node is, with its parts, as the rule says. -/
def Everywhere (rule : Node → List Outline → Prop) : Outline → Prop
  | node head parts => rule head parts ∧ EverywhereAll rule parts

def EverywhereAll (rule : Node → List Outline → Prop) : List Outline → Prop
  | [] => True
  | o :: others => o.Everywhere rule ∧ EverywhereAll rule others

end

/-- A name, or a field of a path. -/
inductive IsPath : Outline → Prop where
  | name (id : Identifier) : IsPath (ofIdentifier id)
  | field {base : Outline} (path : IsPath base) (id : Identifier) :
    IsPath (node .member [base, ofIdentifier id])

end Outline

namespace Node

def isIdentifier : Node → Bool
  | identifier _ => true
  | _ => false

def isBlock : Node → Bool
  | block _ => true
  | _ => false

def isCall : Node → Bool
  | call .. => true
  | _ => false

def isTable : Node → Bool
  | table _ => true
  | _ => false

def isField : Node → Bool
  | value | keyed | named => true
  | _ => false

def isReturning : Node → Bool
  | returning _ => true
  | _ => false

/-- Statements. A function among them has a name. -/
def isStatement : Node → Bool
  | localVariables .. | assignment .. | callStatement | conditional .. | whileLoop | repeatLoop |
    numericFor _ | genericFor .. | doBlock | returning _ | breakLoop | goto | label => true
  | function isNamed _ _ _ => isNamed
  | _ => false

/-- Expressions that have a value. A method is none, and a function among them has no name. -/
def isExpression : Node → Bool
  | identifier _ | literal _ | group | unary _ | binary _ | index | member | call .. | table _ =>
    true
  | function isNamed isLocal _ _ => !isNamed && !isLocal
  | _ => false

/-- Expressions that something can be written behind. -/
def isBase : Node → Bool
  | identifier _ | group | index | member | call .. => true
  | _ => false

/-- Expressions that can be assigned to. -/
def isTarget : Node → Bool
  | identifier _ | index | member => true
  | _ => false

theorem isBase_of_isPath {o : Outline} (h : o.IsPath) : o.head.isBase := by
  cases h <;> rfl

/-- Operators among the operands of a node bind tighter than the node does, or as tight and group on
that side. -/
def OperandsFit : Node → List Outline → Prop
  | binary operator, parts => ∃ left right, parts = [left, right] ∧
    (∀ inner, right.head = .binary inner → operator.AllowsRight inner) ∧
    (∀ inner, left.head = .binary inner → operator.AllowsLeft inner) ∧
    ∀ inner, left.head = .unary inner →
      operator.precedence ≤ UnaryOperator.precedence ∧ operator ≠ .power
  | unary _, parts => ∃ operand, parts = [operand] ∧
    ∀ inner, operand.head = .binary inner → UnaryOperator.precedence < inner.precedence
  | _, _ => True

/-- A name is spelled as one, and no reserved word except for `goto` where that is a name. -/
def IsName (dialect : Dialect) (id : Identifier) : Prop :=
  IsLexeme dialect (.identifier, id.name) ∧
    id.name ∉ ["and", "or", "not", "true", "false", "nil"] ∧
    (id.name ∈ reservedWords → id.name = "goto" ∧ dialect.contextualGoto)

/-- A literal is spelled as a token of its kind, which is never a comment, and a truth value as
itself. -/
def IsLiteral (dialect : Dialect) (value : Literal) : Prop :=
  IsLexeme dialect value.word ∧ value.word.1 ≠ .comment ∧
    ∀ truth, value.kind = .boolean truth → value.raw = if truth then "true" else "false"

/-- The parts in front of the parameters of a function: none, a name, or a path with at most one
method behind it. -/
def NamesFunction (isNamed isLocal : Bool) (name : List Outline) : Prop :=
  match isNamed, isLocal with
  | false, false => name = []
  | false, true => False
  | true, true => ∃ id, name = [.ofIdentifier id]
  | true, false => ∃ path, path.IsPath ∧
    (name = [path] ∨ ∃ method, name = [.node .method [path, .ofIdentifier method]])

/-- The parts of a call behind what is called. -/
def ArgumentsFit (form : ArgumentForm) (parts : List Outline) : Prop :=
  match form with
  | .list => ∀ o ∈ parts, o.head.isExpression
  | .table => ∃ o, parts = [o] ∧ o.head.isTable
  | .string => ∃ value, parts = [.leaf (.literal value)] ∧ value.kind = .string

/-- A node has as many parts as it says, of the right sorts and in the right places. -/
def PartsFit (dialect : Dialect) : Node → List Outline → Prop
  | chunk, parts => ∃ body, parts = [body] ∧ body.head.isBlock
  | block statements, parts =>
    parts.length = statements ∧ (∀ o ∈ parts, o.head.isStatement) ∧
      ∀ o ∈ parts.dropLast, o.head.isReturning = false
  | localVariables names values, parts => ∃ declared init, parts = declared ++ init ∧
    declared.length = names ∧ init.length = values ∧ declared ≠ [] ∧
    (∀ o ∈ declared, o.head.isIdentifier) ∧ ∀ o ∈ init, o.head.isExpression
  | assignment targets values, parts => ∃ assigned init, parts = assigned ++ init ∧
    assigned.length = targets ∧ init.length = values ∧ assigned ≠ [] ∧ init ≠ [] ∧
    (∀ o ∈ assigned, o.head.isTarget) ∧ ∀ o ∈ init, o.head.isExpression
  | callStatement, parts => ∃ expression, parts = [expression] ∧ expression.head.isCall
  | conditional clauses hasElse, parts => ∃ (guarded : List (Outline × Outline)) (otherwise : _),
    parts = guarded.flatMap (fun c => [c.1, c.2]) ++ Option.toList otherwise ∧
    guarded.length = clauses ∧ otherwise.isSome = hasElse ∧ guarded ≠ [] ∧
    (∀ c ∈ guarded, c.1.head.isExpression ∧ c.2.head.isBlock) ∧
    ∀ body ∈ otherwise, body.head.isBlock
  | whileLoop, parts => ∃ condition body, parts = [condition, body] ∧
    condition.head.isExpression ∧ body.head.isBlock
  | repeatLoop, parts => ∃ body condition, parts = [body, condition] ∧
    body.head.isBlock ∧ condition.head.isExpression
  | numericFor hasStep, parts => ∃ counter bounds body, parts = counter :: bounds ++ [body] ∧
    bounds.length = (if hasStep then 3 else 2) ∧ counter.head.isIdentifier ∧
    (∀ o ∈ bounds, o.head.isExpression) ∧ body.head.isBlock
  | genericFor names iterators, parts => ∃ declared values body,
    parts = declared ++ values ++ [body] ∧ declared.length = names ∧
    values.length = iterators ∧ declared ≠ [] ∧ values ≠ [] ∧
    (∀ o ∈ declared, o.head.isIdentifier) ∧ (∀ o ∈ values, o.head.isExpression) ∧
    body.head.isBlock
  | doBlock, parts => ∃ body, parts = [body] ∧ body.head.isBlock
  | returning values, parts => parts.length = values ∧ ∀ o ∈ parts, o.head.isExpression
  | breakLoop, parts => parts = []
  | goto, parts | label, parts => ∃ id, parts = [.ofIdentifier id]
  | function isNamed isLocal count _, parts => ∃ name parameters body,
    parts = name ++ parameters ++ [body] ∧ NamesFunction isNamed isLocal name ∧
    parameters.length = count ∧ (∀ o ∈ parameters, o.head.isIdentifier) ∧ body.head.isBlock
  | identifier id, parts => parts = [] ∧ IsName dialect id
  | literal spelled, parts => parts = [] ∧ IsLiteral dialect spelled
  | group, parts | unary _, parts | value, parts => ∃ e, parts = [e] ∧ e.head.isExpression
  | binary _, parts | keyed, parts => ∃ first second, parts = [first, second] ∧
    first.head.isExpression ∧ second.head.isExpression
  | index, parts => ∃ base key, parts = [base, key] ∧ base.head.isBase ∧ key.head.isExpression
  | member, parts | method, parts => ∃ base id, parts = [base, .ofIdentifier id] ∧ base.head.isBase
  | call form count, parts => ∃ callee arguments, parts = callee :: arguments ∧
    (callee.head.isBase ∨ callee.head = .method) ∧ arguments.length = count ∧
    ArgumentsFit form arguments
  | table fields, parts => parts.length = fields ∧ ∀ o ∈ parts, o.head.isField
  | named, parts => ∃ id e, parts = [.ofIdentifier id, e] ∧ e.head.isExpression

end Node

namespace Outline

variable {rule other : Node → List Outline → Prop}

theorem everywhereAll_iff {parts : List Outline} :
    EverywhereAll rule parts ↔ ∀ o ∈ parts, o.Everywhere rule := by
  induction parts with
  | nil => simp [EverywhereAll]
  | cons o others ih => simp [EverywhereAll, ih]

mutual

theorem Everywhere.mono (le : ∀ head parts, rule head parts → other head parts) :
    ∀ {o : Outline}, o.Everywhere rule → o.Everywhere other
  | node _ _, h => ⟨le _ _ h.1, EverywhereAll.mono le h.2⟩

theorem EverywhereAll.mono (le : ∀ head parts, rule head parts → other head parts) :
    ∀ {parts : List Outline}, EverywhereAll rule parts → EverywhereAll other parts
  | [], _ => trivial
  | _ :: _, h => ⟨Everywhere.mono le h.1, EverywhereAll.mono le h.2⟩

end

end Outline
end LuaFrontend
