import LuaFrontend.Proofs.ExpressionReading
import LuaFrontend.Proofs.ResultLaws
import LuaFrontend.Proofs.StatementReading

set_option autoImplicit false

namespace LuaFrontend

/-- Tokens at which an operand with this limit ends. -/
def Token.StopsAt (limit : Nat) (t : Token) : Prop :=
  ∀ operator, Grammar.binaryOperator? t = some operator → operator.precedence ≤ limit

/-- What is open on the right of the expression has ended at the token. -/
def Expression.EndsAt (t : Token) : Expression → Prop
  | .binary operator _ _ => t.StopsAt operator.rightLimit
  | .unary _ _ => t.StopsAt UnaryOperator.precedence
  | _ => True

/-- The next operator takes all of an expression that has ended for its left operand. -/
theorem Expression.EndsAt.takesLeft {e : Expression} {t : Token} {operator : BinaryOperator}
    (h : e.EndsAt t) (found : Grammar.binaryOperator? t = some operator) :
    operator.takesLeft e := by
  cases e with
  | binary inner left right =>
    have stopped : operator.precedence ≤ inner.rightLimit := h operator found
    have positive := inner.precedence_pos
    simp only [BinaryOperator.takesLeft, Bool.or_eq_true, Bool.and_eq_true, decide_eq_true_eq,
      beq_iff_eq, Bool.not_eq_true']
    by_cases same : inner.precedence = operator.precedence
    · right
      refine ⟨same, ?_⟩
      rw [← BinaryOperator.isRightAssociative_of_precedence same]
      by_contra right
      rw [BinaryOperator.rightLimit, if_pos (Bool.not_eq_false _ ▸ right)] at stopped
      omega
    · left
      rw [BinaryOperator.rightLimit] at stopped
      split at stopped <;> omega
  | unary inner operand => exact decide_eq_true (h operator found)
  | _ => rfl

/-- What binds tighter than the right limit of an operator is its right operand. -/
theorem Expression.takesRight_of_above {e : Expression} {operator : BinaryOperator}
    (h : e.above operator.rightLimit) : operator.takesRight e := by
  cases e with
  | binary inner left right =>
    have tight : operator.rightLimit < inner.precedence := of_decide_eq_true h
    simp only [BinaryOperator.takesRight, Bool.or_eq_true, Bool.and_eq_true, decide_eq_true_eq,
      beq_iff_eq]
    rw [BinaryOperator.rightLimit] at tight
    split at tight
    · next right =>
      have positive := operator.precedence_pos
      by_cases same : inner.precedence = operator.precedence
      · exact .inr ⟨same, right⟩
      · left
        omega
    · exact .inl tight
  | _ => rfl

theorem Expression.isOperand_of_above {e : Expression} (h : e.above UnaryOperator.precedence) :
    e.isOperand := by
  cases e <;> exact h

namespace Grammar

open LuaFrontend.Parser

variable (dialect : Dialect)

/-- What can be said of the tree of a form, and of the token behind it. -/
def properForm : (form : Form) → form.Tree → Token → Prop
  | .block, block, _ => Statement.IsProperAll dialect block
  | .operand limit, result, t =>
    ∀ e ∈ result, e.IsProper dialect ∧ e.above limit ∧ t.StopsAt limit
  | .suffixed, result, _ => ∀ e ∈ result, e.IsProper dialect ∧ e.isSuffixable
  | .table, fields, _ => TableField.IsProperAll dialect fields
  | .arguments, values, _ => Expression.IsProperAll dialect values

/-- Every form gives only what is proper. -/
structure GivesForms (below : Below) : Prop where
  reads : ReadsForms below
  gives : ∀ form, Leaves dialect (fun _ => True) (below form) (properForm dialect form)

variable {dialect} {below : Below}

namespace GivesForms

variable (h : GivesForms dialect below)

include h

theorem block : Gives dialect (below .block) (Statement.IsProperAll dialect) := h.gives .block

theorem suffixed : Gives dialect (below .suffixed) fun result =>
    ∀ e ∈ result, e.IsProper dialect ∧ e.isSuffixable :=
  h.gives .suffixed

theorem table : Gives dialect (below .table) (TableField.IsProperAll dialect) := h.gives .table

theorem arguments : Gives dialect (below .arguments) (Expression.IsProperAll dialect) :=
  h.gives .arguments

end GivesForms

theorem gives_expression? (h : GivesForms dialect below) :
    Gives dialect (expression? below) fun result => ∀ e ∈ result, e.IsProper dialect :=
  leaves_production ((h.gives (.operand 0)).mono fun _ _ all e member => (all e member).1)

theorem gives_expression (h : GivesForms dialect below) :
    Gives dialect (expression below) (·.IsProper dialect) :=
  leaves_required (gives_expression? h)

theorem gives_expressionList (h : GivesForms dialect below) :
    Gives dialect (expressionList below) fun values =>
      values ≠ [] ∧ Expression.IsProperAll dialect values :=
  (gives_commaSeparated (gives_expression h)).mono fun _ _ all =>
    all.imp_right Expression.isProperAll_iff.mpr

section Functions

variable (dialect) in
def Parameters.AreProper (list : Parameters) : Prop := ∀ id ∈ list.names, id.IsProper dialect

theorem gives_parameter {list : Parameters} (proper : list.AreProper dialect) :
    Gives dialect (parameter list) fun result => ∀ next ∈ result, next.AreProper dialect := by
  refine leaves_ite (fun _ => gives_none) fun _ => leaves_current_bind fun _ _ _ =>
    leaves_ite (fun _ => ?_) fun _ => ?_
  · refine gives_identifier.bind fun name isName => (gives_takes ",").bind fun _ _ =>
      gives_some fun id named => ?_
    rcases List.mem_append.mp named with before | last
    · exact proper id before
    · exact List.mem_singleton.mp last ▸ isName
  · refine (gives_consume _).bind fun _ _ => leaves_ite (fun _ => ?_) fun _ => leaves_failHere
    exact gives_some proper

theorem gives_parameters : Gives dialect parameters (·.AreProper dialect) := by
  have none : Parameters.AreProper dialect {} := fun _ absent => absurd absent List.not_mem_nil
  refine (gives_expect "(").bind fun _ _ => (gives_takes ")").bind fun _ _ =>
    leaves_ite (fun _ => gives_pure none) fun _ => ?_
  refine (gives_grow shrinks_parameter (fun _ => gives_parameter) none).bind fun list proper => ?_
  exact (gives_expect ")").bind fun _ _ => gives_pure proper

theorem gives_functionBody (h : GivesForms dialect below) :
    Gives dialect (functionBody below) (·.IsProper dialect) := by
  refine leaves_production (gives_parameters.bind fun list names => h.block.bind fun block all => ?_)
  exact (gives_expect "end").bind fun _ _ => gives_pure ⟨names, all⟩

end Functions

section Tables

theorem leaves_isKey :
    Leaves dialect (fun _ => True) isKey fun key t => key → t.kind = .identifier := by
  intro c key d legible _ run
  obtain ⟨passes, named⟩ := isKey_ok run
  exact ⟨legible.of_passes passes, fun isKey => passes.current_eq ▸ (named isKey).1⟩

theorem gives_field? (h : GivesForms dialect below) :
    Gives dialect (field? below) fun result => ∀ f ∈ result, f.IsProper dialect := by
  refine (gives_takes "[").bind fun _ _ => leaves_ite (fun _ => ?_) fun _ => ?_
  · refine (gives_expression h).bind fun key ofKey => (gives_expect "]").bind fun _ _ =>
      (gives_expect "=").bind fun _ _ => (gives_expression h).bind fun value ofValue => ?_
    exact gives_some ⟨ofKey, ofValue⟩
  · refine Leaves.bind leaves_isKey fun key => leaves_ite (fun isKey => ?_) fun _ => ?_
    · refine leaves_current_bind fun t named whole => ?_
      have more : t.isEnd = false := by simp [Token.isEnd, named isKey]
      have isName := Identifier.isProper_ofToken (whole more) (named isKey)
      refine (gives_discard (gives_consumeNext _)).bind fun _ _ => ?_
      exact (gives_expression h).bind fun value ofValue => gives_some ⟨isName, ofValue⟩
    · refine (gives_expression? h).bind fun value all => ?_
      cases value with
      | none => exact gives_none
      | some value => exact gives_some (all value rfl)

theorem gives_separator : Gives dialect separator fun _ => True :=
  leaves_get_bind fun _ _ _ => leaves_ite (fun _ => gives_advance.bind fun _ _ => gives_pure trivial)
    fun _ => gives_pure trivial

theorem gives_fields (h : GivesForms dialect below) :
    Gives dialect (fields below) (TableField.IsProperAll dialect) := by
  refine (gives_field? h).bind fun first all => ?_
  cases first with
  | none => exact gives_pure trivial
  | some first =>
    have next : Gives dialect
        (do if ← separator then field? below else return none : Parser (Option TableField))
        fun result => ∀ f ∈ result, f.IsProper dialect :=
      gives_separator.bind fun _ _ => leaves_ite (fun _ => gives_field? h) fun _ => gives_none
    refine (gives_many next).bind fun others ofOthers => gives_pure ?_
    exact ⟨all first rfl, TableField.isProperAll_iff.mpr ofOthers⟩

theorem gives_table (h : GivesForms dialect below) :
    Gives dialect (table below) (TableField.IsProperAll dialect) := by
  refine leaves_production ((gives_expect _).bind fun _ _ => (gives_fields h).bind fun _ all => ?_)
  exact (gives_expect _).bind fun _ _ => gives_pure all

end Tables

section Suffixes

theorem gives_arguments (h : GivesForms dialect below) :
    Gives dialect (arguments below) (Expression.IsProperAll dialect) :=
  leaves_get_bind fun _ _ _ => leaves_ite (fun _ => gives_pure trivial) fun _ =>
    (gives_expressionList h).anywhere.mono fun _ _ all => all.2

theorem gives_callArguments? (h : GivesForms dialect below) :
    Gives dialect (callArguments? below) fun result => ∀ a ∈ result, a.IsProper dialect := by
  refine leaves_current_bind fun t _ whole => (gives_takes "(").bind fun _ _ =>
    leaves_ite (fun _ => ?_) fun _ => leaves_get_bind fun _ _ _ => leaves_ite (fun _ => ?_) fun _ =>
      leaves_ite (fun string => ?_) fun _ => gives_none
  · refine h.arguments.bind fun values all => (gives_expect ")").bind fun _ _ => ?_
    exact gives_some all
  · exact h.table.bind fun fields all => gives_some all
  · have more : t.isEnd = false := by simp [Token.isEnd, string]
    have proper : Literal.IsProper dialect ⟨.string, t.text, t.span⟩ :=
      Literal.isProper_ofToken? (whole more) (by simp [Literal.ofToken?, string])
    exact gives_advance.bind fun _ _ => gives_some ⟨rfl, proper⟩

theorem gives_base? (h : GivesForms dialect below) :
    Gives dialect (base? below) fun result =>
      ∀ e ∈ result, e.IsProper dialect ∧ e.isSuffixable := by
  refine leaves_current_bind fun _ _ _ => leaves_ite (fun _ => ?_) fun _ => ?_
  · exact gives_identifier.bind fun id isName => gives_some ⟨isName, rfl⟩
  · refine (gives_takes "(").bind fun _ _ => leaves_ite (fun _ => ?_) fun _ => gives_none
    refine (gives_expression h).bind fun inner proper => (gives_expect ")").bind fun _ _ => ?_
    exact gives_some ⟨proper, rfl⟩

theorem gives_suffix? (h : GivesForms dialect below) {base : Expression}
    (proper : base.IsProper dialect) (isBase : base.isSuffixable) :
    Gives dialect (suffix? below base) fun result =>
      ∀ e ∈ result, e.IsProper dialect ∧ e.isSuffixable := by
  refine (gives_takes "[").bind fun _ _ => leaves_ite (fun _ => ?_) fun _ =>
    (gives_takes ".").bind fun _ _ => leaves_ite (fun _ => ?_) fun _ =>
      (gives_takes ":").bind fun _ _ => leaves_ite (fun _ => ?_) fun _ => ?_
  · refine (gives_expression h).bind fun key ofKey => (gives_expect "]").bind fun _ _ => ?_
    exact gives_some ⟨⟨isBase, proper, ofKey⟩, rfl⟩
  · exact gives_identifier.bind fun field isName => gives_some ⟨⟨isBase, proper, isName⟩, rfl⟩
  · refine gives_identifier.bind fun method isName => ?_
    refine Gives.bind (leaves_required (gives_callArguments? h)) fun values all => ?_
    exact gives_some ⟨⟨isBase, proper, isName, all⟩, rfl⟩
  · refine (gives_callArguments? h).bind fun values all => ?_
    cases values with
    | none => exact gives_none
    | some values => exact gives_some ⟨⟨isBase, proper, all values rfl⟩, rfl⟩

theorem gives_suffixed (h : GivesForms dialect below) :
    Gives dialect (suffixed below) fun result =>
      ∀ e ∈ result, e.IsProper dialect ∧ e.isSuffixable := by
  refine leaves_production ((gives_base? h).bind fun base all => ?_)
  cases base with
  | none => exact gives_none
  | some base =>
    have shrinks := shrinks_of_extends (extends_suffix? h.reads)
    refine Gives.bind (gives_grow shrinks (fun _ good => gives_suffix? h good.1 good.2)
      (all base rfl)) fun whole good => ?_
    exact gives_some good

end Suffixes

section Operators

/-- The expression is proper, and all of it ends where the token stands. -/
def Ended (dialect : Dialect) (limit : Nat) (e : Expression) (t : Token) : Prop :=
  e.IsProper dialect ∧ e.above limit ∧ e.EndsAt t

theorem gives_primary? (h : GivesForms dialect below) (limit : Nat) :
    Leaves dialect (fun _ => True) (primary? below) fun result t =>
      ∀ e ∈ result, Ended dialect limit e t := by
  refine leaves_production (leaves_current_bind fun t _ whole => ?_)
  cases found : Literal.ofToken? t with
  | some value =>
    have proper := Literal.isProper_ofToken? (whole (isEnd_of_literal found)) found
    exact gives_advance.bind fun _ _ => leaves_some fun _ _ => ⟨proper, rfl, trivial⟩
  | none =>
    refine (gives_takes _).bind fun _ _ => leaves_ite (fun _ => ?_) fun _ =>
      leaves_get_bind fun _ _ _ => leaves_ite (fun _ => ?_) fun _ => ?_
    · exact (gives_functionBody h).bind fun _ proper =>
        leaves_some fun _ _ => ⟨proper, rfl, trivial⟩
    · exact h.table.bind fun _ proper => leaves_some fun _ _ => ⟨proper, rfl, trivial⟩
    · refine h.suffixed.anywhere.mono fun result t all e member => ?_
      obtain ⟨proper, isBase⟩ := all e member
      cases e <;> first | exact ⟨proper, rfl, trivial⟩ | cases isBase

theorem leaves_prefixed? (h : GivesForms dialect below) (limit : Nat) :
    Leaves dialect (fun _ => True) (prefixed? below) fun result t =>
      ∀ e ∈ result, Ended dialect limit e t := by
  refine leaves_current_bind fun t _ whole => ?_
  cases found : unaryOperator? t with
  | none => exact (gives_primary? h limit).anywhere
  | some operator =>
    have more := isEnd_of_accepts (accepts_of_unaryOperator? found)
    have lexeme := UnaryOperator.isLexeme_word (whole more) found
    refine gives_advance.bind fun _ _ => ?_
    refine Leaves.bind (leaves_required (h.gives (.operand _))) fun operand => ?_
    refine leaves_some fun t good => ?_
    obtain ⟨proper, above, stops⟩ := good
    exact ⟨⟨lexeme, Expression.isOperand_of_above above, proper⟩, rfl, stops⟩

theorem leaves_joined? (h : GivesForms dialect below) (limit : Nat) (left : Expression) :
    Leaves dialect (Ended dialect limit left) (joined? below limit left) fun result t =>
      result.elim (left.IsProper dialect ∧ left.above limit ∧ t.StopsAt limit)
        (Ended dialect limit · t) := by
  refine leaves_current_bind fun t ended whole => ?_
  obtain ⟨proper, above, ends⟩ := ended
  cases found : binaryOperator? t with
  | none =>
    refine leaves_pure fun u same => ⟨proper, above, fun operator other => ?_⟩
    rw [same, found] at other
    cases other
  | some operator =>
    refine leaves_ite (fun weak => ?_) fun tight => ?_
    · refine leaves_pure fun u same => ⟨proper, above, fun operator other => ?_⟩
      rw [same, found] at other
      cases other
      exact weak
    · have more := isEnd_of_accepts (accepts_of_binaryOperator? found)
      have lexeme := BinaryOperator.isLexeme_word (whole more) found
      have takesLeft := ends.takesLeft found
      refine gives_advance.bind fun _ _ => ?_
      refine Leaves.bind (leaves_required (h.gives (.operand _))) fun right => ?_
      refine leaves_pure fun t good => ?_
      obtain ⟨ofRight, aboveRight, stops⟩ := good
      have takesRight := Expression.takesRight_of_above aboveRight
      have aboveAll : (Expression.binary operator left right).above limit :=
        decide_eq_true (Nat.lt_of_not_le tight)
      exact ⟨⟨lexeme, takesLeft, takesRight, proper, ofRight⟩, aboveAll, stops⟩

theorem leaves_operand (h : GivesForms dialect below) (limit : Nat) :
    Leaves dialect (fun _ => True) (operand below limit) (properForm dialect (.operand limit)) := by
  refine Leaves.bind (leaves_prefixed? h limit) fun left => ?_
  cases left with
  | none => exact gives_none
  | some left =>
    have shrinks := shrinks_of_extends (extends_joined? h.reads limit)
    have grown := leaves_grow shrinks (leaves_joined? h limit) left
    refine Leaves.from (Leaves.bind grown fun whole => leaves_some fun _ good => good) ?_
    exact fun t all => all left rfl

end Operators

end Grammar
end LuaFrontend
