import Mathlib.Data.List.Forall2
import LuaFrontend.Tree.Basic

set_option autoImplicit false

namespace LuaFrontend

def Identifier.mapSpan (f : Span → Span) (id : Identifier) : Identifier :=
  { id with span := f id.span }

def Literal.mapSpan (f : Span → Span) (value : Literal) : Literal :=
  { value with span := f value.span }

def FunctionName.mapSpans (f : Span → Span) (name : FunctionName) : FunctionName :=
  ⟨name.root.mapSpan f, name.fields.map (·.mapSpan f), name.method.map (·.mapSpan f)⟩

mutual

def Expression.mapSpans (f : Span → Span) : Expression → Expression
  | .literal value => .literal (value.mapSpan f)
  | .name id => .name (id.mapSpan f)
  | .group inner => .group (inner.mapSpans f)
  | .unary operator operand => .unary operator (operand.mapSpans f)
  | .binary operator left right => .binary operator (left.mapSpans f) (right.mapSpans f)
  | .index base key => .index (base.mapSpans f) (key.mapSpans f)
  | .member base field => .member (base.mapSpans f) (field.mapSpan f)
  | .call callee arguments => .call (callee.mapSpans f) (arguments.mapSpans f)
  | .methodCall object method arguments =>
    .methodCall (object.mapSpans f) (method.mapSpan f) (arguments.mapSpans f)
  | .table fields => .table (TableField.mapSpansAll f fields)
  | .function value => .function (value.mapSpans f)

def Expression.mapSpansAll (f : Span → Span) : List Expression → List Expression
  | [] => []
  | e :: others => e.mapSpans f :: Expression.mapSpansAll f others

def Arguments.mapSpans (f : Span → Span) : Arguments → Arguments
  | .list values => .list (Expression.mapSpansAll f values)
  | .table fields => .table (TableField.mapSpansAll f fields)
  | .string value => .string (value.mapSpan f)

def TableField.mapSpans (f : Span → Span) : TableField → TableField
  | .value value => .value (value.mapSpans f)
  | .keyed key value => .keyed (key.mapSpans f) (value.mapSpans f)
  | .named name value => .named (name.mapSpan f) (value.mapSpans f)

def TableField.mapSpansAll (f : Span → Span) : List TableField → List TableField
  | [] => []
  | field :: others => field.mapSpans f :: TableField.mapSpansAll f others

def FunctionBody.mapSpans (f : Span → Span) : FunctionBody → FunctionBody
  | .mk parameters isVararg block =>
    .mk (parameters.map (·.mapSpan f)) isVararg (Statement.mapSpansAll f block)

def Clause.mapSpans (f : Span → Span) : Clause → Clause
  | .mk condition block => .mk (condition.mapSpans f) (Statement.mapSpansAll f block)

def Clause.mapSpansAll (f : Span → Span) : List Clause → List Clause
  | [] => []
  | c :: others => c.mapSpans f :: Clause.mapSpansAll f others

def Statement.mapSpans (f : Span → Span) : Statement → Statement
  | .localVariables names values =>
    .localVariables (names.map (·.mapSpan f)) (Expression.mapSpansAll f values)
  | .assignment targets values =>
    .assignment (Expression.mapSpansAll f targets) (Expression.mapSpansAll f values)
  | .call expression => .call (expression.mapSpans f)
  | .conditional clauses otherwise =>
    .conditional (Clause.mapSpansAll f clauses) (Statement.mapSpansElse f otherwise)
  | .whileLoop condition block =>
    .whileLoop (condition.mapSpans f) (Statement.mapSpansAll f block)
  | .repeatLoop block condition =>
    .repeatLoop (Statement.mapSpansAll f block) (condition.mapSpans f)
  | .numericFor counter first last step block =>
    .numericFor (counter.mapSpan f) (first.mapSpans f) (last.mapSpans f)
      (Expression.mapSpansStep f step) (Statement.mapSpansAll f block)
  | .genericFor names iterators block =>
    .genericFor (names.map (·.mapSpan f)) (Expression.mapSpansAll f iterators)
      (Statement.mapSpansAll f block)
  | .doBlock block => .doBlock (Statement.mapSpansAll f block)
  | .returning values => .returning (Expression.mapSpansAll f values)
  | .breakLoop => .breakLoop
  | .goto label => .goto (label.mapSpan f)
  | .label name => .label (name.mapSpan f)
  | .localFunction name value => .localFunction (name.mapSpan f) (value.mapSpans f)
  | .function name value => .function (name.mapSpans f) (value.mapSpans f)

def Statement.mapSpansElse (f : Span → Span) : Option (List Statement) → Option (List Statement)
  | none => none
  | some block => some (Statement.mapSpansAll f block)

def Expression.mapSpansStep (f : Span → Span) : Option Expression → Option Expression
  | none => none
  | some step => some (step.mapSpans f)

def Statement.mapSpansAll (f : Span → Span) : List Statement → List Statement
  | [] => []
  | s :: others => s.mapSpans f :: Statement.mapSpansAll f others

end

variable (f : Span → Span)

theorem Expression.mapSpansAll_eq (values : List Expression) :
    Expression.mapSpansAll f values = values.map (·.mapSpans f) := by
  induction values with
  | nil => rfl
  | cons e others ih => rw [Expression.mapSpansAll, ih, List.map_cons]

theorem TableField.mapSpansAll_eq (fields : List TableField) :
    TableField.mapSpansAll f fields = fields.map (·.mapSpans f) := by
  induction fields with
  | nil => rfl
  | cons field others ih => rw [TableField.mapSpansAll, ih, List.map_cons]

theorem Clause.mapSpansAll_eq (clauses : List Clause) :
    Clause.mapSpansAll f clauses = clauses.map (·.mapSpans f) := by
  induction clauses with
  | nil => rfl
  | cons c others ih => rw [Clause.mapSpansAll, ih, List.map_cons]

theorem Statement.mapSpansAll_eq (block : List Statement) :
    Statement.mapSpansAll f block = block.map (·.mapSpans f) := by
  induction block with
  | nil => rfl
  | cons s others ih => rw [Statement.mapSpansAll, ih, List.map_cons]

theorem Statement.mapSpansElse_eq (otherwise : Option (List Statement)) :
    Statement.mapSpansElse f otherwise = otherwise.map (Statement.mapSpansAll f) := by
  cases otherwise <;> rfl

theorem Expression.mapSpansStep_eq (step : Option Expression) :
    Expression.mapSpansStep f step = step.map (·.mapSpans f) := by
  cases step <;> rfl

@[simp] theorem Expression.isCall_mapSpans (e : Expression) : (e.mapSpans f).isCall = e.isCall := by
  cases e <;> rfl

@[simp] theorem Expression.isAssignable_mapSpans (e : Expression) :
    (e.mapSpans f).isAssignable = e.isAssignable := by
  cases e <;> rfl

/-- Lists whose items are mapped to the same, one by one. -/
theorem map_eq_map_of_forall₂ {α β : Type} {f g : α → β} {first second : List α}
    (h : List.Forall₂ (fun a b => f a = g b) first second) : first.map f = second.map g := by
  rw [← List.forall₂_eq_eq_eq, List.forall₂_map_left_iff, List.forall₂_map_right_iff]
  exact h

mutual

theorem Expression.mapSpans_id : ∀ e : Expression, e.mapSpans id = e
  | .literal _ | .name _ => rfl
  | .group inner => congrArg Expression.group inner.mapSpans_id
  | .unary operator operand => congrArg (Expression.unary operator) operand.mapSpans_id
  | .binary operator left right =>
    congrArg₂ (Expression.binary operator) left.mapSpans_id right.mapSpans_id
  | .index base key => congrArg₂ Expression.index base.mapSpans_id key.mapSpans_id
  | .member base field => congrArg (Expression.member · field) base.mapSpans_id
  | .call callee arguments => congrArg₂ Expression.call callee.mapSpans_id arguments.mapSpans_id
  | .methodCall object method arguments =>
    congrArg₂ (Expression.methodCall · method) object.mapSpans_id arguments.mapSpans_id
  | .table fields => congrArg Expression.table (TableField.mapSpansAll_id fields)
  | .function value => congrArg Expression.function value.mapSpans_id

theorem Expression.mapSpansAll_id : ∀ values : List Expression,
    Expression.mapSpansAll id values = values
  | [] => rfl
  | e :: others => congrArg₂ List.cons e.mapSpans_id (Expression.mapSpansAll_id others)

theorem Arguments.mapSpans_id : ∀ a : Arguments, a.mapSpans id = a
  | .list values => congrArg Arguments.list (Expression.mapSpansAll_id values)
  | .table fields => congrArg Arguments.table (TableField.mapSpansAll_id fields)
  | .string _ => rfl

theorem TableField.mapSpans_id : ∀ field : TableField, field.mapSpans id = field
  | .value value => congrArg TableField.value value.mapSpans_id
  | .keyed key value => congrArg₂ TableField.keyed key.mapSpans_id value.mapSpans_id
  | .named name value => congrArg (TableField.named name) value.mapSpans_id

theorem TableField.mapSpansAll_id : ∀ fields : List TableField,
    TableField.mapSpansAll id fields = fields
  | [] => rfl
  | field :: others => congrArg₂ List.cons field.mapSpans_id (TableField.mapSpansAll_id others)

theorem FunctionBody.mapSpans_id : ∀ body : FunctionBody, body.mapSpans id = body
  | .mk parameters isVararg block =>
    congrArg₂ (FunctionBody.mk · isVararg) (List.map_id parameters) (Statement.mapSpansAll_id block)

theorem Clause.mapSpans_id : ∀ c : Clause, c.mapSpans id = c
  | .mk condition block =>
    congrArg₂ Clause.mk condition.mapSpans_id (Statement.mapSpansAll_id block)

theorem Clause.mapSpansAll_id : ∀ clauses : List Clause, Clause.mapSpansAll id clauses = clauses
  | [] => rfl
  | c :: others => congrArg₂ List.cons c.mapSpans_id (Clause.mapSpansAll_id others)

theorem Statement.mapSpans_id : ∀ s : Statement, s.mapSpans id = s
  | .localVariables names values =>
    congrArg₂ Statement.localVariables (List.map_id names) (Expression.mapSpansAll_id values)
  | .assignment targets values => congrArg₂ Statement.assignment
      (Expression.mapSpansAll_id targets) (Expression.mapSpansAll_id values)
  | .call expression => congrArg Statement.call expression.mapSpans_id
  | .conditional clauses otherwise => congrArg₂ Statement.conditional
      (Clause.mapSpansAll_id clauses) (Statement.mapSpansElse_id otherwise)
  | .whileLoop condition block =>
    congrArg₂ Statement.whileLoop condition.mapSpans_id (Statement.mapSpansAll_id block)
  | .repeatLoop block condition =>
    congrArg₂ Statement.repeatLoop (Statement.mapSpansAll_id block) condition.mapSpans_id
  | .numericFor counter first last step block => by
    simp only [Statement.mapSpans, first.mapSpans_id, last.mapSpans_id,
      Expression.mapSpansStep_id step, Statement.mapSpansAll_id block]
    rfl
  | .genericFor names iterators block => by
    simp only [Statement.mapSpans, Expression.mapSpansAll_id iterators,
      Statement.mapSpansAll_id block]
    exact congrArg (Statement.genericFor · iterators block) (List.map_id names)
  | .doBlock block => congrArg Statement.doBlock (Statement.mapSpansAll_id block)
  | .returning values => congrArg Statement.returning (Expression.mapSpansAll_id values)
  | .breakLoop | .goto _ | .label _ => rfl
  | .localFunction name value => congrArg (Statement.localFunction name) value.mapSpans_id
  | .function ⟨root, fields, method⟩ value => by
    simp only [Statement.mapSpans, value.mapSpans_id, FunctionName.mapSpans]
    exact congrArg₂ (fun fields method => Statement.function ⟨root, fields, method⟩ value)
      (List.map_id fields) (congrFun Option.map_id method)

theorem Statement.mapSpansElse_id : ∀ otherwise : Option (List Statement),
    Statement.mapSpansElse id otherwise = otherwise
  | none => rfl
  | some block => congrArg some (Statement.mapSpansAll_id block)

theorem Expression.mapSpansStep_id : ∀ step : Option Expression,
    Expression.mapSpansStep id step = step
  | none => rfl
  | some step => congrArg some step.mapSpans_id

theorem Statement.mapSpansAll_id : ∀ block : List Statement, Statement.mapSpansAll id block = block
  | [] => rfl
  | s :: others => congrArg₂ List.cons s.mapSpans_id (Statement.mapSpansAll_id others)

end

/-- The same but for the places. -/
def Alike {α : Type} (map : (Span → Span) → α → α) (a b : α) : Prop :=
  map (fun _ => {}) a = map (fun _ => {}) b

/-- The block without places. -/
def Block.eraseSpans (block : Block) : Block := Statement.mapSpansAll (fun _ => {}) block

def Comment.mapSpan (f : Span → Span) (comment : Comment) : Comment :=
  { comment with span := f comment.span }

def Chunk.mapSpans (f : Span → Span) (chunk : Chunk) : Chunk :=
  ⟨Statement.mapSpansAll f chunk.block, chunk.comments.map (·.mapSpan f)⟩

end LuaFrontend
