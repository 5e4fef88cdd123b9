import LuaFrontend.Tree.Basic

set_option autoImplicit false

/-
The outline of a syntax tree: every node with what can be said of it alone, in the order of the
text. It is what a reader of a tree walks over.
-/

namespace LuaFrontend

/-- How the arguments of a call are written. -/
inductive ArgumentForm where
  | list
  | table
  | string
deriving DecidableEq

/-- A node without its parts. Numbers count parts. -/
inductive Node where
  | chunk
  | block (statements : Nat)
  | localVariables (names values : Nat)
  | assignment (targets values : Nat)
  | callStatement
  | conditional (clauses : Nat) (hasElse : Bool)
  | whileLoop
  | repeatLoop
  | numericFor (hasStep : Bool)
  | genericFor (names iterators : Nat)
  | doBlock
  | returning (values : Nat)
  | breakLoop
  | goto
  | label
  | function (isNamed isLocal : Bool) (parameters : Nat) (isVararg : Bool)
  | identifier (id : Identifier)
  | literal (value : Literal)
  | group
  | unary (operator : UnaryOperator)
  | binary (operator : BinaryOperator)
  | index
  | member
  | method
  | call (form : ArgumentForm) (arguments : Nat)
  | table (fields : Nat)
  | value
  | keyed
  | named
deriving DecidableEq

/-- A node over its parts, in the order of the text. -/
inductive Outline where
  | node (head : Node) (parts : List Outline)

namespace Outline

def leaf (head : Node) : Outline := node head []

def ofIdentifier (id : Identifier) : Outline := leaf (.identifier id)

/-- A block over its statements. -/
def ofBlock (statements : List Outline) : Outline := node (.block statements.length) statements

/-- A table over its fields. -/
def ofTable (fields : List Outline) : Outline := node (.table fields.length) fields

mutual

/-- The nodes from the top down and from left to right, each with its depth. -/
def preorderAt (depth : Nat) : Outline → List (Nat × Node)
  | node head parts => (depth, head) :: preorderListAt (depth + 1) parts

def preorderListAt (depth : Nat) : List Outline → List (Nat × Node)
  | [] => []
  | o :: others => preorderAt depth o ++ preorderListAt depth others

end

def preorder (o : Outline) : List (Nat × Node) := preorderAt 0 o

end Outline

/-- The name of a function statement is read like a chain of members. -/
def FunctionName.outline (name : FunctionName) : Outline :=
  let path := name.fields.foldl (fun base field => .node .member [base, .ofIdentifier field])
    (.ofIdentifier name.root)
  match name.method with
  | some method => .node .method [path, .ofIdentifier method]
  | none => path

def Arguments.form : Arguments → ArgumentForm
  | .list _ => .list
  | .table _ => .table
  | .string _ => .string

def Arguments.count : Arguments → Nat
  | .list values => values.length
  | _ => 1

mutual

def Expression.outline : Expression → Outline
  | .literal value => .leaf (.literal value)
  | .name id => .ofIdentifier id
  | .group inner => .node .group [inner.outline]
  | .unary operator operand => .node (.unary operator) [operand.outline]
  | .binary operator left right => .node (.binary operator) [left.outline, right.outline]
  | .index base key => .node .index [base.outline, key.outline]
  | .member base field => .node .member [base.outline, .ofIdentifier field]
  | .call callee arguments =>
    .node (.call arguments.form arguments.count) (callee.outline :: arguments.outlines)
  | .methodCall object method arguments =>
    .node (.call arguments.form arguments.count)
      (.node .method [object.outline, .ofIdentifier method] :: arguments.outlines)
  | .table fields => .ofTable (Outline.ofFields fields)
  | .function value => value.outline false []

def Outline.ofExpressions : List Expression → List Outline
  | [] => []
  | e :: others => e.outline :: Outline.ofExpressions others

def Arguments.outlines : Arguments → List Outline
  | .list values => Outline.ofExpressions values
  | .table fields => [.ofTable (Outline.ofFields fields)]
  | .string value => [.leaf (.literal value)]

def TableField.outline : TableField → Outline
  | .value value => .node .value [value.outline]
  | .keyed key value => .node .keyed [key.outline, value.outline]
  | .named name value => .node .named [.ofIdentifier name, value.outline]

def Outline.ofFields : List TableField → List Outline
  | [] => []
  | f :: others => f.outline :: Outline.ofFields others

/-- A function with the outline of its name, if it has one. -/
def FunctionBody.outline : FunctionBody → Bool → List Outline → Outline
  | .mk parameters isVararg block, isLocal, name =>
    .node (.function (!name.isEmpty) isLocal parameters.length isVararg)
      (name ++ parameters.map .ofIdentifier ++ [.ofBlock (Outline.ofStatements block)])

/-- The condition and the block of a clause. -/
def Clause.outlines : Clause → List Outline
  | .mk condition block => [condition.outline, .ofBlock (Outline.ofStatements block)]

def Outline.ofClauses : List Clause → List Outline
  | [] => []
  | c :: others => c.outlines ++ Outline.ofClauses others

def Statement.outline : Statement → Outline
  | .localVariables names values =>
    .node (.localVariables names.length values.length)
      (names.map .ofIdentifier ++ Outline.ofExpressions values)
  | .assignment targets values =>
    .node (.assignment targets.length values.length)
      (Outline.ofExpressions targets ++ Outline.ofExpressions values)
  | .call expression => .node .callStatement [expression.outline]
  | .conditional clauses otherwise =>
    .node (.conditional clauses.length otherwise.isSome)
      (Outline.ofClauses clauses ++ Outline.ofOtherwise otherwise)
  | .whileLoop condition block =>
    .node .whileLoop [condition.outline, .ofBlock (Outline.ofStatements block)]
  | .repeatLoop block condition =>
    .node .repeatLoop [.ofBlock (Outline.ofStatements block), condition.outline]
  | .numericFor counter first last step block =>
    .node (.numericFor step.isSome)
      (.ofIdentifier counter :: first.outline :: last.outline ::
        (Outline.ofStep step ++ [.ofBlock (Outline.ofStatements block)]))
  | .genericFor names iterators block =>
    .node (.genericFor names.length iterators.length)
      (names.map .ofIdentifier ++ Outline.ofExpressions iterators ++
        [.ofBlock (Outline.ofStatements block)])
  | .doBlock block => .node .doBlock [.ofBlock (Outline.ofStatements block)]
  | .returning values => .node (.returning values.length) (Outline.ofExpressions values)
  | .breakLoop => .leaf .breakLoop
  | .goto label => .node .goto [.ofIdentifier label]
  | .label name => .node .label [.ofIdentifier name]
  | .localFunction name value => value.outline true [.ofIdentifier name]
  | .function name value => value.outline false [name.outline]

def Outline.ofOtherwise : Option (List Statement) → List Outline
  | none => []
  | some block => [.ofBlock (Outline.ofStatements block)]

def Outline.ofStep : Option Expression → List Outline
  | none => []
  | some step => [step.outline]

def Outline.ofStatements : List Statement → List Outline
  | [] => []
  | s :: others => s.outline :: Outline.ofStatements others

end

def Chunk.outline (chunk : Chunk) : Outline :=
  .node .chunk [Outline.ofBlock (Outline.ofStatements chunk.block)]

end LuaFrontend
