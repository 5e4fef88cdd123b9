import LuaFrontend.Proofs.AccessInRange
import LuaFrontend.Proofs.Ledger
import LuaFrontend.Proofs.ProfileCounts
import LuaFrontend.Proofs.TreeShape

set_option autoImplicit false

namespace LuaFrontend

open LuaFrontend.Parser

namespace Node

/-- The productions that are entered to build the node, the outermost first. The root is left out:
it is what the parse as a whole builds. -/
@[simp] def builders : Node → List Production
  | block _ => [.block]
  | localVariables .. => [.statement, .localDeclaration]
  | assignment .. | callStatement => [.statement, .assignmentOrCall]
  | conditional .. => [.statement, .conditional]
  | whileLoop => [.statement, .whileLoop]
  | repeatLoop => [.statement, .repeatLoop]
  | numericFor _ | genericFor .. => [.statement, .forLoop]
  | doBlock => [.statement, .doBlock]
  | returning _ => [.returning]
  | breakLoop => [.statement]
  | goto => [.statement, .goto]
  | label => [.statement, .label]
  | function true true _ _ => [.statement, .localDeclaration, .functionBody]
  | function true false _ _ => [.statement, .function, .functionBody]
  | function false _ _ _ => [.functionBody]
  | table _ => [.table]
  | chunk | identifier _ | literal _ | group | unary _ | binary _ | index | member | method |
    call .. | value | keyed | named => []

/-- What the productions cost that build the node. -/
@[simp] def cost (r : Rates) (head : Node) : Int := (head.builders.map r.price).sum

end Node

namespace Outline

mutual

/-- What the productions cost that build the nodes. -/
@[simp] def cost (r : Rates) : Outline → Int
  | node head parts => head.cost r + costAll r parts

@[simp] def costAll (r : Rates) : List Outline → Int
  | [] => 0
  | o :: others => o.cost r + costAll r others

end

variable (r : Rates)

mutual

theorem sum_preorderAt (depth : Nat) (o : Outline) :
    ((o.preorderAt depth).map (·.2.cost r)).sum = o.cost r := by
  cases o with
  | node head parts =>
    rw [preorderAt, cost, ← sum_preorderListAt (depth + 1) parts, List.map_cons, List.sum_cons]

theorem sum_preorderListAt (depth : Nat) (os : List Outline) :
    ((preorderListAt depth os).map (·.2.cost r)).sum = costAll r os := by
  cases os with
  | nil => rfl
  | cons o others =>
    rw [preorderListAt, costAll, List.map_append, List.sum_append, sum_preorderAt depth o,
      sum_preorderListAt depth others]

end

@[simp] theorem costAll_append (first second : List Outline) :
    costAll r (first ++ second) = costAll r first + costAll r second := by
  induction first with
  | nil => simp
  | cons o first ih => simp [ih, Int.add_assoc]

@[simp] theorem cost_ofIdentifier (id : Identifier) : (ofIdentifier id).cost r = 0 := rfl

/-- Names are built by no production of their own. -/
@[simp] theorem costAll_names (ids : List Identifier) : costAll r (ids.map ofIdentifier) = 0 := by
  induction ids with
  | nil => rfl
  | cons id ids ih => simp [ih]

theorem cost_path (fields : List Identifier) (base : Outline) :
    (fields.foldl (fun base field => node .member [base, ofIdentifier field]) base).cost r =
      base.cost r := by
  induction fields generalizing base with
  | nil => rfl
  | cons field fields ih =>
    rw [List.foldl_cons, ih]
    simp

@[simp] theorem cost_functionName (name : FunctionName) : name.outline.cost r = 0 := by
  cases name with
  | mk root fields method =>
    cases method with
    | none => exact cost_path r fields _
    | some method => simp [FunctionName.outline, cost_path]

theorem costAll_eq_sum (os : List Outline) : costAll r os = (os.map (cost r)).sum := by
  induction os with
  | nil => rfl
  | cons o os ih => rw [costAll, ih, List.map_cons, List.sum_cons]

theorem costAll_ofExpressions (values : List Expression) :
    costAll r (ofExpressions values) = (values.map (·.outline.cost r)).sum := by
  rw [costAll_eq_sum, ofExpressions_eq, List.map_map]
  rfl

theorem costAll_ofFields (fields : List TableField) :
    costAll r (ofFields fields) = (fields.map (·.outline.cost r)).sum := by
  rw [costAll_eq_sum, ofFields_eq, List.map_map]
  rfl

theorem costAll_ofStatements (block : List Statement) :
    costAll r (ofStatements block) = (block.map (·.outline.cost r)).sum := by
  rw [costAll_eq_sum, ofStatements_eq, List.map_map]
  rfl

theorem costAll_ofClauses (clauses : List Clause) :
    costAll r (ofClauses clauses) = (clauses.map fun c => costAll r c.outlines).sum := by
  induction clauses with
  | nil => rfl
  | cons c clauses ih => rw [ofClauses, costAll_append, ih, List.map_cons, List.sum_cons]

end Outline

/-- Only productions that build nodes cost something, and tokens pay nothing. -/
structure Rates.AreForNodes (r : Rates) : Prop where
  fee : r.fee = 0
  expression : r.price .expression = 0
  primary : r.price .primary = 0
  suffixed : r.price .suffixed = 0

theorem Rates.AreForNodes.eq_of_lowers {r : Rates} {least : Nat} {n m : Int} (h : r.AreForNodes)
    (low : r.Lowers least n m) : m = n := by
  obtain ⟨taken, -, rfl⟩ := low
  rw [h.fee, Int.zero_mul, Int.sub_zero]

namespace Parser

variable {α β : Type} {r : Rates} {start : Token → Prop} {n : Int} {p : Parser α}
  {f : α → Parser β} {cost : α → Int} {fine : β → Int → Prop}

/-- What a parser gives costs what the parser has entered. -/
def Builds (r : Rates) (p : Parser α) (cost : α → Int) : Prop :=
  ∀ n, Pays r n p (fun a m => m = n + cost a) fun _ => True

/-- The parser enters nothing. -/
def IsFree (r : Rates) (p : Parser α) : Prop := ∀ n, Pays r n p (fun _ m => m = n) fun _ => True

/-- A part that is absent costs nothing. -/
@[simp] def ifPresent (cost : α → Int) : Option α → Int
  | some a => cost a
  | none => 0

theorem Builds.bind (h : Builds r p cost)
    (next : ∀ a, Pays r (n + cost a) (f a) fine fun _ => True) :
    PaysFrom r start n (p >>= f) fine fun _ => True :=
  (h n).from.bind fun a _ same => same ▸ next a

theorem IsFree.bind (h : IsFree r p) (next : ∀ a, Pays r n (f a) fine fun _ => True) :
    PaysFrom r start n (p >>= f) fine fun _ => True :=
  (h n).from.bind fun a _ same => same ▸ next a

/-- What is built in a production costs its price more. -/
theorem builds_production (q : Production) (h : Builds r p fun a => cost a - r.price q) :
    Builds r (production q p) cost :=
  fun n => pays_production q ((h _).mono fun a m
    (same : m = n + r.price q + (cost a - r.price q)) => show m = n + cost a by omega)

theorem IsFree.many {step : Parser (Option α)} (h : IsFree r step) : IsFree r (many step) :=
  fun _ => pays_many rfl fun _ m same => (h m).mono fun _ _ further => further.trans same

section Tokens

variable (nodes : r.AreForNodes)

include nodes

theorem free_advance : IsFree r (liftM Cursor.advance : Parser Unit) :=
  fun _ => (pays_advance trivial).mono fun _ _ low => nodes.eq_of_lowers low

theorem free_takes (text : String) : IsFree r (takes text) :=
  fun _ => (pays_takes text trivial).mono fun _ _ same => nodes.eq_of_lowers (.of_takes same)

theorem free_expect (text : String) : IsFree r (expect text) :=
  fun _ => (free_takes nodes text).bind fun _ => pays_ite (pays_pure rfl) (pays_failHere _ trivial)

theorem free_identifier : IsFree r identifier :=
  fun n => (pays_identifier trivial).mono fun _ _ same => by
    rw [same, nodes.fee, Int.sub_zero]

theorem free_separator : IsFree r Grammar.separator :=
  fun _ => (Grammar.pays_separator trivial).mono fun _ _ same =>
    nodes.eq_of_lowers (.of_takes same)

theorem free_parameters : IsFree r Grammar.parameters :=
  fun _ => (Grammar.pays_parameters fun _ _ => trivial).mono fun _ _ low => nodes.eq_of_lowers low

theorem free_consumeNext (pattern : Pattern) :
    IsFree r (discard (liftM (Cursor.consumeNext pattern) : Parser Bool)) :=
  fun _ => pays_discard ((Grammar.pays_consumeNext pattern fun _ _ => trivial).mono
    fun _ _ low => nodes.eq_of_lowers low)

theorem free_behind {text : String} (h : IsFree r p) : IsFree r (behind text p) :=
  fun _ => (free_takes nodes text).bind fun _ => pays_ite (h.bind fun _ => pays_pure rfl)
    (pays_pure rfl)

theorem free_commaSeparated (h : IsFree r p) : IsFree r (commaSeparated p) :=
  fun _ => h.bind fun _ => (free_behind nodes h).many.bind fun _ => pays_pure rfl

theorem builds_behind {text : String} (h : Builds r p cost) :
    Builds r (behind text p) (ifPresent cost) := by
  refine fun n => (free_takes nodes text).bind fun taken => pays_ite ?_ ?_
  · exact h.bind fun a => pays_pure rfl
  · exact pays_pure (Int.add_zero n).symm

end Tokens

theorem builds_required (what : Expectation) {p : Parser (Option α)}
    (h : Builds r p (ifPresent cost)) : Builds r (required what p) cost :=
  fun n => pays_required what (h n) (fun _ _ same => same) fun _ _ => trivial

theorem builds_many {step : Parser (Option α)} (h : Builds r step (ifPresent cost)) :
    Builds r (many step) fun parts => (parts.map cost).sum := by
  refine fun n => pays_many (by simp) fun l m same => (h m).mono fun part k further => ?_
  subst same further
  cases part with
  | some a => simp [Int.add_assoc]
  | none => simp

/-- Every round costs as much as it makes what has been built cost more. -/
theorem builds_grow {step : α → Parser (Option α)}
    (h : ∀ a, Builds r (step a) (ifPresent fun b => cost b - cost a)) (a : α) :
    Builds r (grow step a) fun b => cost b - cost a := by
  refine fun n => pays_grow (by simp) fun b m same => (h b m).mono fun built k further => ?_
  subst same further
  cases built with
  | some b => simp only [ifPresent, Option.getD_some]; omega
  | none => simp only [ifPresent, Option.getD_none]; omega

theorem builds_commaSeparated (nodes : r.AreForNodes) (h : Builds r p cost) :
    Builds r (commaSeparated p) fun parts => (parts.map cost).sum := by
  refine fun n => h.bind fun a => (builds_many (builds_behind nodes h)).bind fun others => ?_
  exact pays_pure (by simp [Int.add_assoc])

end Parser

/-- What a form costs. -/
@[simp] def Form.cost (r : Rates) : (form : Form) → form.Tree → Int
  | block, statements => (Outline.ofBlock (Outline.ofStatements statements)).cost r
  | operand _, e => ifPresent (·.outline.cost r) e
  | suffixed, e => ifPresent (·.outline.cost r) e
  | table, fields => (Outline.ofTable (Outline.ofFields fields)).cost r
  | arguments, values => Outline.costAll r (Outline.ofExpressions values)

/-! What the trees cost, each in terms of the parts that its production reads. -/

section Trees

variable (r : Rates)

theorem cost_index (base key : Expression) : (Expression.index base key).outline.cost r =
    base.outline.cost r + key.outline.cost r := by
  simp [Expression.outline]

theorem cost_call (callee : Expression) (arguments : Arguments) :
    (Expression.call callee arguments).outline.cost r =
      callee.outline.cost r + Outline.costAll r arguments.outlines := by
  simp [Expression.outline]

theorem cost_methodCall (object : Expression) (method : Identifier) (arguments : Arguments) :
    (Expression.methodCall object method arguments).outline.cost r =
      object.outline.cost r + Outline.costAll r arguments.outlines := by
  simp [Expression.outline]

theorem cost_binary (operator : BinaryOperator) (left right : Expression) :
    (Expression.binary operator left right).outline.cost r =
      left.outline.cost r + right.outline.cost r := by
  simp [Expression.outline]

theorem cost_function (parameters : List Identifier) (isVararg : Bool) (block : List Statement) :
    ((FunctionBody.mk parameters isVararg block).outline false []).cost r =
      r.price .functionBody + Form.cost r .block block := by
  simp [FunctionBody.outline]

/-- A function with a name is a statement, and its declaration. -/
theorem cost_named (value : FunctionBody) (isLocal : Bool) (name : Outline) :
    (value.outline isLocal [name]).cost r =
      r.price .statement + r.price (if isLocal then .localDeclaration else .function) +
        name.cost r + (value.outline false []).cost r := by
  cases value
  cases isLocal <;> simp [FunctionBody.outline] <;> omega

theorem cost_localFunction (name : Identifier) (value : FunctionBody) :
    (Statement.localFunction name value).outline.cost r =
      r.price .statement + r.price .localDeclaration + (value.outline false []).cost r := by
  simp [Statement.outline, cost_named]

theorem cost_functionStatement (name : FunctionName) (value : FunctionBody) :
    (Statement.function name value).outline.cost r =
      r.price .statement + r.price .function + (value.outline false []).cost r := by
  simp [Statement.outline, cost_named]

theorem cost_localVariables (names : List Identifier) (values : List Expression) :
    (Statement.localVariables names values).outline.cost r =
      r.price .statement + r.price .localDeclaration +
        Outline.costAll r (Outline.ofExpressions values) := by
  simp [Statement.outline]

theorem cost_assignment (targets values : List Expression) :
    (Statement.assignment targets values).outline.cost r =
      r.price .statement + r.price .assignmentOrCall +
        ((targets.map (·.outline.cost r)).sum +
          Outline.costAll r (Outline.ofExpressions values)) := by
  simp [Statement.outline, Outline.costAll_ofExpressions]

theorem cost_callStatement (e : Expression) : (Statement.call e).outline.cost r =
    r.price .statement + r.price .assignmentOrCall + e.outline.cost r := by
  simp [Statement.outline]

theorem cost_conditional (clauses : List Clause) (otherwise : Option (List Statement)) :
    (Statement.conditional clauses otherwise).outline.cost r =
      r.price .statement + r.price .conditional +
        ((clauses.map fun c => Outline.costAll r c.outlines).sum +
          ifPresent (Form.cost r .block) otherwise) := by
  cases otherwise <;> simp [Statement.outline, Outline.ofOtherwise, Outline.costAll_ofClauses]

theorem cost_whileLoop (condition : Expression) (block : List Statement) :
    (Statement.whileLoop condition block).outline.cost r = r.price .statement +
      r.price .whileLoop + (condition.outline.cost r + Form.cost r .block block) := by
  simp [Statement.outline]

theorem cost_repeatLoop (block : List Statement) (condition : Expression) :
    (Statement.repeatLoop block condition).outline.cost r = r.price .statement +
      r.price .repeatLoop + (Form.cost r .block block + condition.outline.cost r) := by
  simp [Statement.outline]

theorem cost_numericFor (counter : Identifier) (first last : Expression)
    (step : Option Expression) (block : List Statement) :
    (Statement.numericFor counter first last step block).outline.cost r =
      r.price .statement + r.price .forLoop + (first.outline.cost r + (last.outline.cost r +
        (ifPresent (·.outline.cost r) step + Form.cost r .block block))) := by
  cases step <;> simp [Statement.outline, Outline.ofStep]

theorem cost_genericFor (names : List Identifier) (iterators : List Expression)
    (block : List Statement) :
    (Statement.genericFor names iterators block).outline.cost r =
      r.price .statement + r.price .forLoop +
        (Outline.costAll r (Outline.ofExpressions iterators) + Form.cost r .block block) := by
  simp [Statement.outline]

theorem cost_doBlock (block : List Statement) : (Statement.doBlock block).outline.cost r =
    r.price .statement + r.price .doBlock + Form.cost r .block block := by
  simp [Statement.outline]

theorem cost_goto (label : Identifier) : (Statement.goto label).outline.cost r =
    r.price .statement + r.price .goto := by
  simp [Statement.outline]

theorem cost_label (name : Identifier) : (Statement.label name).outline.cost r =
    r.price .statement + r.price .label := by
  simp [Statement.outline]

end Trees

namespace Grammar

def BuildsForms (r : Rates) (below : Below) : Prop := ∀ form, Builds r (below form) (form.cost r)

variable {r : Rates} (nodes : r.AreForNodes) {below : Below} (h : BuildsForms r below)

section Expressions

include nodes h

theorem builds_expression? :
    Builds r (expression? below) (ifPresent (·.outline.cost r)) := by
  refine fun n => pays_production _ ?_
  rw [nodes.expression, Int.add_zero]
  exact h (.operand 0) n

theorem builds_expression : Builds r (expression below) (·.outline.cost r) :=
  builds_required _ (builds_expression? nodes h)

theorem builds_expressionList : Builds r (expressionList below) fun values =>
    Outline.costAll r (Outline.ofExpressions values) := by
  simp only [Outline.costAll_ofExpressions]
  exact builds_commaSeparated nodes (builds_expression nodes h)

/-- A function is built the same behind each of its names, but for what the name makes of it. -/
theorem builds_functionBody : Builds r (functionBody below) fun value =>
    (value.outline false []).cost r := by
  refine fun n => pays_production _ ((free_parameters nodes).bind fun list =>
    (h .block).bind fun block => (free_expect nodes "end").bind fun _ => pays_pure ?_)
  simp only [cost_function]
  omega

theorem builds_field? : Builds r (field? below) (ifPresent (·.outline.cost r)) := by
  have ofExpression := builds_expression nodes h
  refine fun n => (free_takes nodes "[").bind fun taken => pays_ite ?_
    (IsFree.bind (fun _ => pays_isKey trivial) fun key => pays_ite ?_ ?_)
  · refine ofExpression.bind fun key => (free_expect nodes "]").bind fun _ =>
      (free_expect nodes "=").bind fun _ => ofExpression.bind fun value => pays_pure ?_
    simp [TableField.outline, Int.add_assoc]
  · refine pays_current_bind fun t _ => (free_consumeNext nodes (.text "=")).bind fun _ => ?_
    refine ofExpression.bind fun value => pays_pure ?_
    simp [TableField.outline]
  · refine (builds_expression? nodes h).bind fun e => pays_pure ?_
    cases e <;> simp [TableField.outline]

theorem builds_fields : Builds r (fields below) fun fields =>
    Outline.costAll r (Outline.ofFields fields) := by
  have next : Builds r (do if ← separator then field? below else return none)
      (ifPresent (·.outline.cost r)) :=
    fun _ => (free_separator nodes).bind fun _ =>
      pays_ite (builds_field? nodes h _) (pays_pure (by simp))
  refine fun n => (builds_field? nodes h).bind fun first => ?_
  cases first with
  | some first =>
    refine (builds_many next).bind fun others => pays_pure ?_
    simp [Outline.ofFields, Outline.costAll_ofFields, Int.add_assoc]
  | none => exact pays_pure (by simp [Outline.ofFields])

theorem builds_table : Builds r (table below) (Form.cost r .table) := by
  refine fun n => pays_production _ ((free_expect nodes _).bind fun _ =>
    (builds_fields nodes h).bind fun fields => (free_expect nodes _).bind fun _ => pays_pure ?_)
  simp [Outline.ofTable, Int.add_assoc]

theorem builds_arguments : Builds r (arguments below) (Form.cost r .arguments) :=
  fun n => pays_get_bind fun _ _ => pays_ite (pays_pure (by simp [Outline.ofExpressions]))
    (builds_expressionList nodes h n).from

theorem builds_callArguments? : Builds r (callArguments? below)
    (ifPresent fun arguments => Outline.costAll r arguments.outlines) := by
  refine fun n => pays_current_bind fun t _ => (free_takes nodes "(").bind fun taken => pays_ite ?_
    (pays_get_bind fun _ _ => pays_ite ?_ (pays_ite ?_ (pays_pure (by simp))))
  · refine (h .arguments).bind fun values => (free_expect nodes ")").bind fun _ => pays_pure ?_
    simp [Arguments.outlines]
  · refine (h .table).bind fun fields => pays_pure ?_
    simp [Arguments.outlines]
  · refine (free_advance nodes).bind fun _ => pays_pure ?_
    simp [Arguments.outlines, Outline.leaf]

theorem builds_base? : Builds r (base? below) (ifPresent (·.outline.cost r)) := by
  refine fun n => pays_current_bind fun t _ => pays_ite ?_
    ((free_takes nodes "(").bind fun taken => pays_ite ?_ (pays_pure (by simp)))
  · exact (free_identifier nodes).bind fun name => pays_pure (by simp [Expression.outline])
  · refine (builds_expression nodes h).bind fun inner => (free_expect nodes ")").bind fun _ => ?_
    exact pays_pure (by simp [Expression.outline])

theorem builds_suffix? (base : Expression) : Builds r (suffix? below base)
    (ifPresent fun e => e.outline.cost r - base.outline.cost r) := by
  refine fun n => (free_takes nodes "[").bind fun _ => pays_ite ?_ ((free_takes nodes ".").bind
    fun _ => pays_ite ?_ ((free_takes nodes ":").bind fun _ => pays_ite ?_ ?_))
  · refine (builds_expression nodes h).bind fun key => (free_expect nodes "]").bind fun _ =>
      pays_pure ?_
    simp only [ifPresent, cost_index]
    omega
  · refine (free_identifier nodes).bind fun field => pays_pure ?_
    simp [Expression.outline]
  · refine (free_identifier nodes).bind fun method =>
      (builds_required _ (builds_callArguments? nodes h)).bind fun arguments => pays_pure ?_
    simp only [ifPresent, cost_methodCall]
    omega
  · refine (builds_callArguments? nodes h).bind fun arguments => pays_pure ?_
    cases arguments with
    | none => simp
    | some arguments =>
      simp only [Option.map_some, ifPresent, cost_call]
      omega

theorem builds_suffixed : Builds r (suffixed below) (Form.cost r .suffixed) := by
  refine fun n => pays_production _ ((builds_base? nodes h).bind fun base => ?_)
  rw [nodes.suffixed, Int.add_zero]
  cases base with
  | some base =>
    -- A suffix costs what it adds to its base, so in the end only the whole expression counts.
    refine (builds_grow (builds_suffix? nodes h) base).bind fun e => pays_pure ?_
    simp only [Form.cost, ifPresent]
    omega
  | none => exact pays_pure (by simp)

theorem builds_primary? : Builds r (primary? below) (ifPresent (·.outline.cost r)) := by
  refine fun n => pays_production _ (pays_current_bind fun t _ => ?_)
  rw [nodes.primary, Int.add_zero]
  cases Literal.ofToken? t with
  | some value =>
    refine (free_advance nodes).bind fun _ => pays_pure ?_
    simp [Expression.outline, Outline.leaf]
  | none =>
    refine (free_takes nodes "function").bind fun _ => pays_ite ?_ (pays_get_bind fun _ _ =>
      pays_ite ?_ ?_)
    · refine (builds_functionBody nodes h).bind fun value => pays_pure ?_
      simp [Expression.outline]
    · refine (h .table).bind fun fields => pays_pure ?_
      simp [Expression.outline]
    · exact (h .suffixed _).from

theorem builds_prefixed? : Builds r (prefixed? below) (ifPresent (·.outline.cost r)) := by
  refine fun n => pays_current_bind fun t _ => ?_
  cases unaryOperator? t with
  | none => exact (builds_primary? nodes h n).from
  | some operator =>
    refine (free_advance nodes).bind fun _ =>
      (builds_required _ (h (.operand UnaryOperator.precedence))).bind fun operand => pays_pure ?_
    simp [Expression.outline]

theorem builds_joined? (limit : Nat) (left : Expression) : Builds r (joined? below limit left)
    (ifPresent fun e => e.outline.cost r - left.outline.cost r) := by
  refine fun n => pays_current_bind fun t _ => ?_
  cases binaryOperator? t with
  | none => exact pays_pure (by simp)
  | some operator =>
    refine pays_ite (pays_pure (by simp)) ((free_advance nodes).bind fun _ =>
      (builds_required _ (h (.operand operator.rightLimit))).bind fun right => pays_pure ?_)
    simp only [ifPresent, cost_binary]
    omega

theorem builds_operand (limit : Nat) :
    Builds r (operand below limit) (Form.cost r (.operand limit)) := by
  refine fun n => (builds_prefixed? nodes h).bind fun left => ?_
  cases left with
  | some left =>
    refine (builds_grow (builds_joined? nodes h limit) left).bind fun e => pays_pure ?_
    simp only [Form.cost, ifPresent]
    omega
  | none => exact pays_pure (by simp)

end Expressions

section Statements

include nodes h

theorem builds_localDeclaration : Builds r (localDeclaration below)
    fun s => s.outline.cost r - r.price .statement := by
  refine fun n => pays_production _ ((free_advance nodes).bind fun _ =>
    (free_takes nodes "function").bind fun _ => pays_ite ?_ ?_)
  · refine (free_identifier nodes).bind fun name =>
      (builds_functionBody nodes h).bind fun value => pays_pure ?_
    simp only [cost_localFunction]
    omega
  · refine (free_commaSeparated nodes (free_identifier nodes)).bind fun names =>
      (builds_behind nodes (builds_expressionList nodes h)).bind fun values => pays_pure ?_
    simp only [cost_localVariables]
    cases values with
    | none =>
      simp only [ifPresent, Option.getD_none, Outline.ofExpressions, Outline.costAll]
      omega
    | some values =>
      simp only [ifPresent, Option.getD_some]
      omega

theorem builds_clause : Builds r (clause below) fun c => Outline.costAll r c.outlines := by
  refine fun n => (free_advance nodes).bind fun _ => (builds_expression nodes h).bind fun condition =>
    (free_expect nodes "then").bind fun _ => (h .block).bind fun block => pays_pure ?_
  simp [Clause.outlines, Int.add_assoc]

theorem builds_elseClause? : Builds r (elseClause? below)
    (ifPresent fun c => Outline.costAll r c.outlines) := by
  refine fun n => pays_current_bind fun t _ => pays_ite ?_ (pays_pure (by simp))
  exact (builds_clause nodes h).bind fun c => pays_pure (by simp)

theorem builds_conditional : Builds r (conditional below)
    fun s => s.outline.cost r - r.price .statement := by
  refine fun n => pays_production _ ((builds_clause nodes h).bind fun first =>
    (builds_many (builds_elseClause? nodes h)).bind fun others =>
    (builds_behind nodes (h .block)).bind fun otherwise =>
    (free_expect nodes "end").bind fun _ => pays_pure ?_)
  simp only [cost_conditional, List.map_cons, List.sum_cons]
  omega

theorem builds_functionStatement : Builds r (functionStatement below)
    fun s => s.outline.cost r - r.price .statement := by
  have name (text : String) : IsFree r (behind text identifier) :=
    free_behind nodes (free_identifier nodes)
  refine fun n => pays_production _ ((free_advance nodes).bind fun _ =>
    (free_identifier nodes).bind fun root => (name ".").many.bind fun fields =>
    (name ":").bind fun method => (builds_functionBody nodes h).bind fun value => pays_pure ?_)
  simp only [cost_functionStatement]
  omega

theorem builds_enclosedBlock : Builds r (enclosedBlock below) (Form.cost r .block) :=
  fun _ => (free_expect nodes "do").bind fun _ => (h .block).bind fun _ =>
    (free_expect nodes "end").bind fun _ => pays_pure rfl

theorem builds_whileLoop : Builds r (whileLoop below)
    fun s => s.outline.cost r - r.price .statement := by
  refine fun n => pays_production _ ((free_advance nodes).bind fun _ =>
    (builds_expression nodes h).bind fun condition =>
    (builds_enclosedBlock nodes h).bind fun block => pays_pure ?_)
  simp only [cost_whileLoop]
  omega

theorem builds_forLoop : Builds r (forLoop below)
    fun s => s.outline.cost r - r.price .statement := by
  have ofExpression := builds_expression nodes h
  refine fun n => pays_production _ ((free_advance nodes).bind fun _ =>
    (free_identifier nodes).bind fun counter => (free_takes nodes "=").bind fun _ =>
    pays_ite ?_ ?_)
  · refine ofExpression.bind fun first => (free_expect nodes ",").bind fun _ =>
      ofExpression.bind fun last => (builds_behind nodes ofExpression).bind fun step =>
      (builds_enclosedBlock nodes h).bind fun block => pays_pure ?_
    simp only [cost_numericFor]
    omega
  · refine (free_behind nodes (free_identifier nodes)).many.bind fun others =>
      (free_expect nodes "in").bind fun _ => (builds_expressionList nodes h).bind fun iterators =>
      (builds_enclosedBlock nodes h).bind fun block => pays_pure ?_
    simp only [cost_genericFor]
    omega

theorem builds_repeatLoop : Builds r (repeatLoop below)
    fun s => s.outline.cost r - r.price .statement := by
  refine fun n => pays_production _ ((free_advance nodes).bind fun _ => (h .block).bind fun block =>
    (free_expect nodes "until").bind fun _ =>
    (builds_expression nodes h).bind fun condition => pays_pure ?_)
  simp only [cost_repeatLoop]
  omega

theorem builds_doBlock : Builds r (doBlock below)
    fun s => s.outline.cost r - r.price .statement := by
  refine fun n => pays_production _ ((builds_enclosedBlock nodes h).bind fun block => pays_pure ?_)
  simp only [cost_doBlock]
  omega

omit h in
theorem builds_goto : Builds r goto fun s => s.outline.cost r - r.price .statement := by
  refine fun n => pays_production _ ((free_advance nodes).bind fun _ =>
    (free_identifier nodes).bind fun name => pays_pure ?_)
  simp only [cost_goto]
  omega

omit h in
theorem builds_label : Builds r label fun s => s.outline.cost r - r.price .statement := by
  refine fun n => pays_production _ ((free_advance nodes).bind fun _ =>
    (free_identifier nodes).bind fun name => (free_expect nodes "::").bind fun _ => pays_pure ?_)
  simp only [cost_label]
  omega

omit nodes in
theorem builds_target : Builds r (target below) (·.outline.cost r) := by
  refine fun n => (h .suffixed).bind fun value => ?_
  cases value with
  | some value => exact pays_pure rfl
  | none => exact pays_unexpected trivial

theorem builds_assignmentOrCall : Builds r (assignmentOrCall below)
    fun s => s.outline.cost r - r.price .statement := by
  have ofTarget := builds_target h
  refine fun n => pays_production _ (ofTarget.bind fun first => pays_get_bind fun _ _ =>
    pays_ite ?_ (pays_ite (pays_pure ?_) (pays_unexpected trivial)))
  · refine (builds_many (builds_behind nodes ofTarget)).bind fun others =>
      pays_ite ((free_expect nodes "=").bind fun _ =>
        (builds_expressionList nodes h).bind fun values => pays_pure ?_)
        (pays_unexpected trivial)
    simp only [cost_assignment, List.map_cons, List.sum_cons]
    omega
  · simp only [cost_callStatement]
    omega

theorem builds_statement : Builds r (statement below) (·.outline.cost r) := by
  refine builds_production _ fun n => pays_current_bind fun t _ => ?_
  cases Heading.ofToken t with
  | localDeclaration => exact (builds_localDeclaration nodes h n).from
  | conditional => exact (builds_conditional nodes h n).from
  | function => exact (builds_functionStatement nodes h n).from
  | whileLoop => exact (builds_whileLoop nodes h n).from
  | forLoop => exact (builds_forLoop nodes h n).from
  | repeatLoop => exact (builds_repeatLoop nodes h n).from
  | doBlock => exact (builds_doBlock nodes h n).from
  | goto => exact (builds_goto nodes n).from
  | breakLoop =>
    refine (free_advance nodes).bind fun _ => pays_pure ?_
    simp [Statement.outline, Outline.leaf]
  | label => exact (builds_label nodes n).from
  | gotoName =>
    exact IsFree.bind (fun _ => pays_isJump trivial) fun _ =>
      pays_ite (builds_goto nodes n) (builds_assignmentOrCall nodes h n)
  | assignmentOrCall => exact (builds_assignmentOrCall nodes h n).from

theorem builds_returning : Builds r (returning below) (·.outline.cost r) := by
  have values : Builds r (returnedValues below) fun values =>
      Outline.costAll r (Outline.ofExpressions values) :=
    fun _ => pays_current_bind fun _ _ => pays_get_bind fun _ _ =>
      pays_ite (builds_expressionList nodes h _).from (pays_pure (by simp [Outline.ofExpressions]))
  refine fun n => pays_production _ ((free_advance nodes).bind fun _ => values.bind fun values =>
    IsFree.bind (fun _ => pays_discard (free_takes nodes ";" _)) fun _ => pays_pure ?_)
  simp [Statement.outline, Int.add_assoc]

theorem builds_statement? : Builds r (statement? below) (ifPresent (·.outline.cost r)) := by
  have semicolons : IsFree r (discard (many (behind ";" (pure ())))) :=
    fun n => pays_discard ((free_behind nodes fun _ => pays_pure rfl).many n)
  refine fun n => semicolons.bind fun _ => pays_current_bind fun t _ => pays_ite ?_ ?_
  · exact (builds_statement nodes h).bind fun s => pays_pure rfl
  · exact pays_pure (by simp)

theorem builds_block : Builds r (block below) (Form.cost r .block) := by
  refine fun n => pays_production _ ((builds_many (builds_statement? nodes h)).bind
    fun statements => pays_current_bind fun t _ => pays_ite ?_ (pays_pure ?_))
  · refine (builds_returning nodes h).bind fun last => pays_pure ?_
    simp [Outline.ofBlock, Outline.costAll_ofStatements, Int.add_assoc]
  · simp [Outline.ofBlock, Outline.costAll_ofStatements, Int.add_assoc]

end Statements

omit h in
include nodes in
theorem builds_levels (depth : Nat) : BuildsForms r (levels depth) := by
  induction depth with
  | zero => exact fun _ _ => pays_failHere _ trivial
  | succ depth ih =>
    intro form
    cases form with
    | block => exact builds_block nodes ih
    | operand limit => exact builds_operand nodes ih limit
    | suffixed => exact builds_suffixed nodes ih
    | table => exact builds_table nodes ih
    | arguments => exact builds_arguments nodes ih

include nodes in
/-- The root is what the whole parse builds. -/
theorem builds_chunk (depth : Nat) :
    Builds r (chunk depth) fun chunk => r.price .chunk + chunk.outline.cost r := by
  have taken : IsFree r (liftM Cursor.takeComments : Parser (List Token)) :=
    fun _ _ input _ stands => ⟨input, stands⟩
  refine fun n => pays_production _ ((builds_levels nodes depth .block).bind fun block =>
    pays_current_bind fun _ _ => pays_ite ?_ (pays_unexpected trivial))
  refine taken.bind fun comments => pays_pure ?_
  simp [Chunk.outline, Int.add_assoc]

end Grammar

/-- One for each time that the production is entered. -/
def Rates.counting (p : Production) : Rates where
  price q := if q = p then 1 else 0
  fee := 0

section Counting

variable {p : Production}

theorem Rates.areForNodes_counting (h : p ∉ [.expression, .primary, .suffixed]) :
    (Rates.counting p).AreForNodes := by
  simp only [List.mem_cons, List.not_mem_nil, or_false, not_or] at h
  obtain ⟨expression, primary, suffixed⟩ := h
  exact ⟨rfl, if_neg (Ne.symm expression), if_neg (Ne.symm primary), if_neg (Ne.symm suffixed)⟩

theorem Event.sum_price_counting (p : Production) (events : List Event) :
    (events.map (Event.price (.counting p))).sum = events.count (.enter p) :=
  sum_eq_countP (fun e => by cases e <;> simp [price, Rates.counting]) events

theorem Node.nodup_builders (head : Node) : head.builders.Nodup := by
  unfold builders
  split <;> decide

/-- A node counts once for each production that builds it. -/
theorem Node.cost_counting (p : Production) (head : Node) :
    head.cost (.counting p) = if p ∈ head.builders then 1 else 0 := by
  have all : head.cost (.counting p) = head.builders.count p :=
    sum_eq_countP (fun q => by simp [Rates.counting]) head.builders
  rw [all, head.nodup_builders.count]
  split <;> rfl

theorem Outline.cost_counting (p : Production) (o : Outline) :
    o.cost (.counting p) = o.preorder.countP fun entry => p ∈ entry.2.builders := by
  rw [← sum_preorderAt _ 0 o]
  refine sum_eq_countP (fun entry => ?_) (o.preorderAt 0)
  simp only [Node.cost_counting, decide_eq_true_eq]

end Counting

/-- The root is the only node of the whole program. -/
theorem Node.chunk_notMem_builders (head : Node) : .chunk ∉ head.builders := by
  unfold builders
  split <;> decide

/-- A program costs what its parse has entered. -/
theorem count_enter_of_parse {options : Options} {source : String} {chunk : Chunk} {p : Production}
    (h : parse options source = .ok chunk) (counted : p ∉ [.expression, .primary, .suffixed]) :
    (Report.ofSource options source).events.count (.enter p) =
      (if p = .chunk then 1 else 0) +
        chunk.outline.preorder.countP fun entry => p ∈ entry.2.builders := by
  obtain ⟨c, d, opened, run⟩ := parse_ok.mp h
  have nodes := Rates.areForNodes_counting counted
  have settles := Grammar.builds_chunk nodes options.maxDepth 0 (ofSource_view opened).2.2.2.1
    trivial (Cursor.balance_of_opening opened)
  rw [run] at settles
  have balance : d.balance (.counting p) =
      0 + ((Rates.counting p).price .chunk + chunk.outline.cost (.counting p)) := settles.2
  have events : (Report.ofSource options source).events = d.journal.reverse := by
    simp only [Report.ofSource, opened, run]
  -- The root is not among the nodes that cost something: it has a price of its own.
  have root : (Rates.counting p).price .chunk = if p = .chunk then 1 else 0 := by
    simp only [Rates.counting, eq_comm]
  rw [Cursor.balance, Event.sum_price_counting, Outline.cost_counting, nodes.fee, root] at balance
  rw [events, List.count_reverse]
  by_cases isRoot : p = .chunk
  · rw [if_pos isRoot] at balance ⊢
    omega
  · rw [if_neg isRoot] at balance ⊢
    omega

/-- What a profile of a parse has counted. Behind a program nothing is open; the parse as a whole
was entered once, and every other production, apart from those of operands, just as often as the
tree has nodes that it builds; and the tokens are all that the text is cut into. -/
theorem calls_count_nodes {options : Options} {source : String} {chunk : Chunk}
    (h : parse options source = .ok chunk) :
    (Profile.ofEvents (Report.ofSource options source).events).opened = [] ∧
    (Profile.ofEvents (Report.ofSource options source).events).count Production.chunk.name = 1 ∧
    (∀ p ∉ [.chunk, .expression, .primary, .suffixed],
      (Profile.ofEvents (Report.ofSource options source).events).count p.name =
        chunk.outline.preorder.countP fun entry => p ∈ entry.2.builders) ∧
    ∃ tokens, tokenize options.toDialect source = .ok tokens ∧
      (Profile.ofEvents (Report.ofSource options source).events).tokens = tokens.length := by
  obtain ⟨balanced, -⟩ := Report.trace options source
  refine ⟨Profile.opened_ofEvents balanced, ?_, fun p counted => ?_, _, Report.tokenize_of_ok h,
    Profile.tokens_ofEvents _⟩
  · rw [Profile.count_ofEvents, count_enter_of_parse h (by decide), if_pos rfl,
      List.countP_eq_zero.mpr fun entry _ member =>
        entry.2.chunk_notMem_builders (of_decide_eq_true member)]
  · obtain ⟨other, counted⟩ := not_or.mp (List.mem_cons.not.mp counted)
    rw [Profile.count_ofEvents, count_enter_of_parse h counted, if_neg other, Nat.zero_add]

/-- A local function that calls another one with a table: both are statements, each in a block. -/
theorem calls_of_local_function :
    ∃ chunk, parse .forParser "local function f()g{}end" = .ok chunk ∧
      let profile := Profile.ofEvents (Report.ofSource .forParser "local function f()g{}end").events
      profile.opened = [] ∧ profile.count "block" = 2 ∧ profile.count "statement" = 2 ∧
        profile.count "local" = 1 ∧ profile.count "function" = 0 ∧
        profile.count "function_body" = 1 ∧ profile.count "table" = 1 := by
  have nodes : (parse .forParser "local function f()g{}end").toOption.map (·.outline.preorder) =
      some [(0, .chunk), (1, .block 1), (2, .function true true 0 false),
        (3, .identifier ⟨"f", ⟨15, 16⟩⟩), (3, .block 1), (4, .callStatement), (5, .call .table 1),
        (6, .identifier ⟨"g", ⟨18, 19⟩⟩), (6, .table 0)] := by decide +kernel
  obtain ⟨chunk, parsed, same, closed, -, counts, -⟩ := exists_of_preorder nodes calls_count_nodes
  rw [same] at counts
  exact ⟨chunk, parsed, closed, counts .block (by decide), counts .statement (by decide),
    counts .localDeclaration (by decide), counts .function (by decide),
    counts .functionBody (by decide), counts .table (by decide)⟩

end LuaFrontend
