import LuaFrontend.Proofs.PrintedForm
import LuaFrontend.Proofs.WrittenForm

set_option autoImplicit false

namespace LuaFrontend

/-- May have something written behind it: an index, a field or arguments. -/
def Expression.isSuffixable : Expression → Bool
  | .name _ | .group _ | .index .. | .member .. | .call .. | .methodCall .. => true
  | _ => false

/-- Operands that are read as one operand of the prefix operators. -/
def Expression.isOperand : Expression → Bool
  | .binary operator _ _ => UnaryOperator.precedence < operator.precedence
  | _ => true

namespace BinaryOperator

/-- The expression stays the left operand of the operator without parentheses. -/
def takesLeft (operator : BinaryOperator) : Expression → Bool
  | .binary inner _ _ => operator.precedence < inner.precedence ||
    (inner.precedence == operator.precedence && !operator.isRightAssociative)
  | .unary _ _ => operator.precedence ≤ UnaryOperator.precedence
  | _ => true

/-- The expression stays the right operand of the operator without parentheses. -/
def takesRight (operator : BinaryOperator) : Expression → Bool
  | .binary inner _ _ => operator.precedence < inner.precedence ||
    (inner.precedence == operator.precedence && operator.isRightAssociative)
  | _ => true

end BinaryOperator

variable (dialect : Dialect)

def Identifier.IsProper (id : Identifier) : Prop := IsLexeme dialect id.word

/-- Numbers and strings are lexemes of their kind; the others are spelled in one way only. -/
def Literal.IsProper (value : Literal) : Prop :=
  match value.kind with
  | .nil => value.raw = "nil"
  | .boolean truth => value.raw = if truth then "true" else "false"
  | .vararg => value.raw = "..."
  | .number | .string => IsLexeme dialect value.word

def FunctionName.IsProper (name : FunctionName) : Prop :=
  name.root.IsProper dialect ∧ (∀ id ∈ name.fields, id.IsProper dialect) ∧
    ∀ id ∈ name.method, id.IsProper dialect

mutual

def Expression.IsProper : Expression → Prop
  | .literal value => value.IsProper dialect
  | .name id => id.IsProper dialect
  | .group inner => inner.IsProper
  | .unary operator operand =>
    IsLexeme dialect operator.word ∧ operand.isOperand ∧ operand.IsProper
  | .binary operator left right =>
    IsLexeme dialect operator.word ∧ operator.takesLeft left ∧ operator.takesRight right ∧
      left.IsProper ∧ right.IsProper
  | .index base key => base.isSuffixable ∧ base.IsProper ∧ key.IsProper
  | .member base field => base.isSuffixable ∧ base.IsProper ∧ field.IsProper dialect
  | .call callee arguments => callee.isSuffixable ∧ callee.IsProper ∧ arguments.IsProper
  | .methodCall object method arguments =>
    object.isSuffixable ∧ object.IsProper ∧ method.IsProper dialect ∧ arguments.IsProper
  | .table fields => TableField.IsProperAll fields
  | .function value => value.IsProper

def Expression.IsProperAll : List Expression → Prop
  | [] => True
  | e :: others => e.IsProper ∧ Expression.IsProperAll others

def Arguments.IsProper : Arguments → Prop
  | .list values => Expression.IsProperAll values
  | .table fields => TableField.IsProperAll fields
  | .string value => value.kind = .string ∧ value.IsProper dialect

def TableField.IsProper : TableField → Prop
  | .value value => value.IsProper
  | .keyed key value => key.IsProper ∧ value.IsProper
  | .named name value => name.IsProper dialect ∧ value.IsProper

def TableField.IsProperAll : List TableField → Prop
  | [] => True
  | f :: others => f.IsProper ∧ TableField.IsProperAll others

def FunctionBody.IsProper : FunctionBody → Prop
  | .mk parameters _ block =>
    (∀ id ∈ parameters, id.IsProper dialect) ∧ Statement.IsProperAll block

def Clause.IsProper : Clause → Prop
  | .mk condition block => condition.IsProper ∧ Statement.IsProperAll block

def Clause.IsProperAll : List Clause → Prop
  | [] => True
  | c :: others => c.IsProper ∧ Clause.IsProperAll others

def Statement.IsProper : Statement → Prop
  | .localVariables names values =>
    names ≠ [] ∧ (∀ id ∈ names, id.IsProper dialect) ∧ Expression.IsProperAll values
  | .assignment targets values =>
    targets ≠ [] ∧ values ≠ [] ∧ (∀ target ∈ targets, target.isAssignable) ∧
      Expression.IsProperAll targets ∧ Expression.IsProperAll values
  | .call expression => expression.isCall ∧ expression.IsProper
  | .conditional clauses otherwise =>
    clauses ≠ [] ∧ Clause.IsProperAll clauses ∧ Statement.IsProperElse otherwise
  | .whileLoop condition block => condition.IsProper ∧ Statement.IsProperAll block
  | .repeatLoop block condition => Statement.IsProperAll block ∧ condition.IsProper
  | .numericFor counter first last step block =>
    counter.IsProper dialect ∧ first.IsProper ∧ last.IsProper ∧ Expression.IsProperStep step ∧
      Statement.IsProperAll block
  | .genericFor names iterators block =>
    names ≠ [] ∧ iterators ≠ [] ∧ (∀ id ∈ names, id.IsProper dialect) ∧
      Expression.IsProperAll iterators ∧ Statement.IsProperAll block
  | .doBlock block => Statement.IsProperAll block
  | .returning values => Expression.IsProperAll values
  | .breakLoop => True
  | .goto label => (dialect.contextualGoto → dialect.labels) ∧ label.IsProper dialect
  | .label name => dialect.labels ∧ name.IsProper dialect
  | .localFunction name value => name.IsProper dialect ∧ value.IsProper
  | .function name value => name.IsProper dialect ∧ value.IsProper

def Statement.IsProperElse : Option (List Statement) → Prop
  | none => True
  | some block => Statement.IsProperAll block

def Expression.IsProperStep : Option Expression → Prop
  | none => True
  | some step => step.IsProper

/-- Nothing follows a `return`. -/
def Statement.IsProperAll : List Statement → Prop
  | [] => True
  | s :: others => s.IsProper ∧ (s.isReturn → others = []) ∧ Statement.IsProperAll others

end

mutual

/-- The levels below the one of the expression itself. -/
def Expression.inside : Expression → Nat
  | .literal _ => 0
  | .name _ => 1
  | .group inner => 1 + (1 + inner.inside)
  | .unary _ operand => 1 + operand.inside
  | .binary _ left right => max left.inside (1 + right.inside)
  | .index base key => 1 + max base.chain (1 + key.inside)
  | .member base _ => 1 + base.chain
  | .call callee arguments => 1 + max callee.chain arguments.levels
  | .methodCall object _ arguments => 1 + max object.chain arguments.levels
  | .table fields => 1 + TableField.levelsAll fields
  | .function value => value.levels

/-- The levels of what is written in brackets behind a name or a group. -/
def Expression.chain : Expression → Nat
  | .group inner => 1 + inner.inside
  | .index base key => max base.chain (1 + key.inside)
  | .member base _ => base.chain
  | .call callee arguments => max callee.chain arguments.levels
  | .methodCall object _ arguments => max object.chain arguments.levels
  | _ => 0

def Expression.levelsAll : List Expression → Nat
  | [] => 0
  | e :: others => max (1 + e.inside) (Expression.levelsAll others)

def Arguments.levels : Arguments → Nat
  | .list values => 1 + Expression.levelsAll values
  | .table fields => 1 + TableField.levelsAll fields
  | .string _ => 0

def TableField.levels : TableField → Nat
  | .value value => 1 + value.inside
  | .keyed key value => max (1 + key.inside) (1 + value.inside)
  | .named _ value => 1 + value.inside

/-- In an empty table a name or a group is looked for. -/
def TableField.levelsAll : List TableField → Nat
  | [] => 2
  | f :: others => max f.levels (if others.isEmpty then 0 else TableField.levelsAll others)

def FunctionBody.levels : FunctionBody → Nat
  | .mk _ _ block => 1 + Statement.levelsAll block

def Clause.levels : Clause → Nat
  | .mk condition block => max (1 + condition.inside) (1 + Statement.levelsAll block)

def Clause.levelsAll : List Clause → Nat
  | [] => 0
  | c :: others => max c.levels (Clause.levelsAll others)

def Statement.levels : Statement → Nat
  | .localVariables _ values => Expression.levelsAll values
  | .assignment targets values =>
    max (Expression.levelsTargets targets) (Expression.levelsAll values)
  | .call expression => 1 + expression.chain
  | .conditional clauses otherwise =>
    max (Clause.levelsAll clauses) (Statement.levelsElse otherwise)
  | .whileLoop condition block => max (1 + condition.inside) (1 + Statement.levelsAll block)
  | .repeatLoop block condition => max (1 + Statement.levelsAll block) (1 + condition.inside)
  | .numericFor _ first last step block =>
    max (max (1 + first.inside) (1 + last.inside))
      (max (Expression.levelsStep step) (1 + Statement.levelsAll block))
  | .genericFor _ iterators block =>
    max (Expression.levelsAll iterators) (1 + Statement.levelsAll block)
  | .doBlock block => 1 + Statement.levelsAll block
  | .returning values => Expression.levelsAll values
  | .breakLoop | .goto _ | .label _ => 0
  | .localFunction _ value => value.levels
  | .function _ value => value.levels

def Expression.levelsTargets : List Expression → Nat
  | [] => 0
  | e :: others => max (1 + e.chain) (Expression.levelsTargets others)

def Statement.levelsElse : Option (List Statement) → Nat
  | none => 0
  | some block => 1 + Statement.levelsAll block

def Expression.levelsStep : Option Expression → Nat
  | none => 0
  | some step => 1 + step.inside

/-- The levels below the one of the block itself. -/
def Statement.levelsAll : List Statement → Nat
  | [] => 0
  | s :: others => max s.levels (Statement.levelsAll others)

end

/-- The levels that are open at once while an expression is read. -/
def Expression.levels (e : Expression) : Nat := 1 + e.inside

/-- The levels that are open at once while a block is read. -/
def Block.levels (block : Block) : Nat := 1 + Statement.levelsAll block

theorem Expression.inside_of_isSuffixable {e : Expression} (h : e.isSuffixable) :
    e.inside = 1 + e.chain := by
  cases e <;> first | rfl | cases h

variable {dialect}

theorem Expression.isSuffixable_of_isCall {e : Expression} (h : e.isCall) : e.isSuffixable := by
  cases e <;> first | rfl | cases h

theorem Expression.isSuffixable_of_isAssignable {e : Expression} (h : e.isAssignable) :
    e.isSuffixable := by
  cases e <;> first | rfl | cases h

section Lists

theorem Expression.isProperAll_iff {values : List Expression} :
    Expression.IsProperAll dialect values ↔ ∀ e ∈ values, e.IsProper dialect := by
  induction values with
  | nil => simp [Expression.IsProperAll]
  | cons e others ih => simp [Expression.IsProperAll, ih]

theorem TableField.isProperAll_iff {fields : List TableField} :
    TableField.IsProperAll dialect fields ↔ ∀ f ∈ fields, f.IsProper dialect := by
  induction fields with
  | nil => simp [TableField.IsProperAll]
  | cons f others ih => simp [TableField.IsProperAll, ih]

theorem Clause.isProperAll_iff {clauses : List Clause} :
    Clause.IsProperAll dialect clauses ↔ ∀ c ∈ clauses, c.IsProper dialect := by
  induction clauses with
  | nil => simp [Clause.IsProperAll]
  | cons c others ih => simp [Clause.IsProperAll, ih]

theorem Expression.le_levelsAll {e : Expression} {values : List Expression} (h : e ∈ values) :
    1 + e.inside ≤ Expression.levelsAll values := by
  induction h with
  | head others => exact Nat.le_max_left _ _
  | tail _ _ ih => exact Nat.le_trans ih (Nat.le_max_right _ _)

theorem Expression.le_levelsTargets {e : Expression} {targets : List Expression}
    (h : e ∈ targets) : 1 + e.chain ≤ Expression.levelsTargets targets := by
  induction h with
  | head others => exact Nat.le_max_left _ _
  | tail _ _ ih => exact Nat.le_trans ih (Nat.le_max_right _ _)

theorem TableField.le_levelsAll {f : TableField} {fields : List TableField} (h : f ∈ fields) :
    f.levels ≤ TableField.levelsAll fields := by
  induction h with
  | head others => exact Nat.le_max_left _ _
  | @tail g others member ih =>
    have some : others.isEmpty = false := by
      cases member <;> rfl
    have more : TableField.levelsAll others ≤ TableField.levelsAll (g :: others) := by
      simp only [TableField.levelsAll, some]
      exact Nat.le_max_right _ _
    exact Nat.le_trans ih more

theorem Clause.le_levelsAll {c : Clause} {clauses : List Clause} (h : c ∈ clauses) :
    c.levels ≤ Clause.levelsAll clauses := by
  induction h with
  | head others => exact Nat.le_max_left _ _
  | tail _ _ ih => exact Nat.le_trans ih (Nat.le_max_right _ _)

theorem Statement.le_levelsAll {s : Statement} {block : List Statement} (h : s ∈ block) :
    s.levels ≤ Statement.levelsAll block := by
  induction h with
  | head others => exact Nat.le_max_left _ _
  | tail _ _ ih => exact Nat.le_trans ih (Nat.le_max_right _ _)

end Lists

section Binding

/-- The outermost operator binds tighter than the limit. -/
def Expression.above (limit : Nat) : Expression → Bool
  | .binary operator _ _ => limit < operator.precedence
  | _ => true

/-- Behind the expression, the operator takes the whole of it for its left operand: it does not bind
tighter than any operator whose right operand is still open there. -/
def Expression.stops (operator : BinaryOperator) : Expression → Bool
  | .binary inner _ right => operator.precedence ≤ inner.rightLimit && right.stops operator
  | .unary _ operand => operator.precedence ≤ UnaryOperator.precedence && operand.stops operator
  | _ => true

namespace BinaryOperator

theorem precedence_pos (operator : BinaryOperator) : 0 < operator.precedence := by
  cases operator <;> decide

/-- Only the power binds tighter than the prefix operators. -/
theorem le_unary_of_le_rightLimit {operator inner : BinaryOperator}
    (h : operator.precedence ≤ inner.rightLimit) :
    operator.precedence ≤ UnaryOperator.precedence := by
  have limit : inner.rightLimit ≤ 13 := by cases inner <;> decide
  cases operator <;> first | decide | exact absurd (Nat.le_trans h limit) (by decide)

theorem isRightAssociative_of_precedence {operator inner : BinaryOperator}
    (h : inner.precedence = operator.precedence) :
    inner.isRightAssociative = operator.isRightAssociative := by
  cases operator <;> cases inner <;> first | rfl | cases h

theorem le_rightLimit_of_lt {operator inner : BinaryOperator}
    (h : operator.precedence < inner.precedence) : operator.precedence ≤ inner.rightLimit := by
  rw [rightLimit]
  split <;> omega

end BinaryOperator

namespace Expression

theorem above_zero (e : Expression) : e.above 0 := by
  cases e with
  | binary operator left right => exact decide_eq_true operator.precedence_pos
  | _ => rfl

theorem above_of_isOperand {e : Expression} (h : e.isOperand) :
    e.above UnaryOperator.precedence := by
  cases e <;> exact h

theorem above_of_takesRight {operator : BinaryOperator} {e : Expression}
    (h : operator.takesRight e) : e.above operator.rightLimit := by
  cases e with
  | binary inner left right =>
    have positive := operator.precedence_pos
    simp only [BinaryOperator.takesRight, Bool.or_eq_true, Bool.and_eq_true, decide_eq_true_eq,
      beq_iff_eq] at h
    refine decide_eq_true ?_
    rw [BinaryOperator.rightLimit]
    split
    · omega
    · next other =>
      obtain tighter | ⟨-, right⟩ := h
      · exact tighter
      · exact absurd right other
  | _ => rfl

theorem above_of_takesLeft {operator : BinaryOperator} {e : Expression} {limit : Nat}
    (h : operator.takesLeft e) (tight : limit < operator.precedence) : e.above limit := by
  cases e with
  | binary inner left right =>
    simp only [BinaryOperator.takesLeft, Bool.or_eq_true, Bool.and_eq_true, decide_eq_true_eq,
      beq_iff_eq] at h
    simp only [above, decide_eq_true_eq]
    omega
  | _ => rfl

/-- Operators on the right of an expression bind tighter than the one on top of it. -/
theorem stops_of_above {operator : BinaryOperator} : ∀ {e : Expression} {limit : Nat},
    e.IsProper dialect → e.above limit → operator.precedence ≤ limit →
      operator.precedence ≤ UnaryOperator.precedence → e.stops operator
  | .binary inner left right, limit, proper, above, low, weak => by
    obtain ⟨-, -, takesRight, -, ofRight⟩ := proper
    have tighter : limit < inner.precedence := of_decide_eq_true above
    have here : operator.precedence ≤ inner.rightLimit :=
      BinaryOperator.le_rightLimit_of_lt (Nat.lt_of_le_of_lt low tighter)
    have there := stops_of_above ofRight (above_of_takesRight takesRight) here weak
    simp [stops, here, there]
  | .unary operator operand, limit, proper, above, low, weak => by
    obtain ⟨-, isOperand, ofOperand⟩ := proper
    have there := stops_of_above ofOperand (above_of_isOperand isOperand) weak weak
    simp [stops, weak, there]
  | .literal _, _, _, _, _, _ => rfl
  | .name _, _, _, _, _, _ => rfl
  | .group _, _, _, _, _, _ => rfl
  | .index _ _, _, _, _, _, _ => rfl
  | .member _ _, _, _, _, _, _ => rfl
  | .call _ _, _, _, _, _, _ => rfl
  | .methodCall _ _ _, _, _, _, _, _ => rfl
  | .table _, _, _, _, _, _ => rfl
  | .function _, _, _, _, _, _ => rfl

/-- A left operand ends where its operator stands. -/
theorem stops_of_takesLeft {operator : BinaryOperator} {e : Expression}
    (proper : e.IsProper dialect) (h : operator.takesLeft e) : e.stops operator := by
  cases e with
  | binary inner left right =>
    obtain ⟨-, -, takesRight, -, ofRight⟩ := proper
    simp only [BinaryOperator.takesLeft, Bool.or_eq_true, Bool.and_eq_true, decide_eq_true_eq,
      beq_iff_eq, Bool.not_eq_true'] at h
    have here : operator.precedence ≤ inner.rightLimit := by
      obtain tighter | ⟨same, left⟩ := h
      · exact BinaryOperator.le_rightLimit_of_lt tighter
      · have other := BinaryOperator.isRightAssociative_of_precedence same
        rw [BinaryOperator.rightLimit, other, left, same]
        exact Nat.le_refl _
    have weak := BinaryOperator.le_unary_of_le_rightLimit here
    have there := stops_of_above ofRight (above_of_takesRight takesRight) here weak
    simp [stops, here, there]
  | unary inner operand =>
    obtain ⟨-, isOperand, ofOperand⟩ := proper
    have weak : operator.precedence ≤ UnaryOperator.precedence := of_decide_eq_true h
    have there := stops_of_above ofOperand (above_of_isOperand isOperand) weak weak
    simp [stops, weak, there]
  | _ => rfl

end Expression

end Binding

end LuaFrontend
