import LuaFrontend.Proofs.OutlineRules
import LuaFrontend.Proofs.ProperStatements

set_option autoImplicit false

namespace LuaFrontend

variable {dialect : Dialect}

/-- Both rules for a node. -/
def Node.Fits (dialect : Dialect) (head : Node) (parts : List Outline) : Prop :=
  head.OperandsFit parts ∧ head.PartsFit dialect parts

section Heads

theorem Expression.isExpression_head (e : Expression) : e.outline.head.isExpression := by
  cases e with
  | function value => cases value with | mk => rfl
  | _ => rfl

theorem Expression.isBase_head {e : Expression} (h : e.isSuffixable) : e.outline.head.isBase := by
  cases e <;> first | rfl | cases h

theorem Expression.isTarget_head {e : Expression} (h : e.isAssignable) :
    e.outline.head.isTarget := by
  cases e <;> first | rfl | cases h

theorem Expression.isCall_head {e : Expression} (h : e.isCall) : e.outline.head.isCall := by
  cases e <;> first | rfl | cases h

theorem TableField.isField_head (f : TableField) : f.outline.head.isField := by
  cases f <;> rfl

theorem Statement.isStatement_head (s : Statement) : s.outline.head.isStatement := by
  cases s with
  | localFunction _ value => cases value with | mk => rfl
  | function _ value => cases value with | mk => rfl
  | _ => rfl

theorem Statement.isReturning_head (s : Statement) : s.outline.head.isReturning = s.isReturn := by
  cases s with
  | localFunction _ value => cases value with | mk => rfl
  | function _ value => cases value with | mk => rfl
  | _ => rfl

/-- An operator on top of an outline is one on top of the expression. -/
theorem Expression.eq_of_head_binary {e : Expression} {operator : BinaryOperator}
    (h : e.outline.head = .binary operator) : ∃ left right, e = .binary operator left right := by
  cases e with
  | binary inner left right =>
    cases h
    exact ⟨left, right, rfl⟩
  | function value => cases value with | mk => cases h
  | _ => cases h

theorem Expression.eq_of_head_unary {e : Expression} {operator : UnaryOperator}
    (h : e.outline.head = .unary operator) : ∃ operand, e = .unary operator operand := by
  cases e with
  | unary inner operand =>
    cases h
    exact ⟨operand, rfl⟩
  | function value => cases value with | mk => cases h
  | _ => cases h

end Heads

section Lists

theorem Outline.ofExpressions_eq (values : List Expression) :
    ofExpressions values = values.map (·.outline) := by
  induction values with
  | nil => rfl
  | cons e others ih => rw [ofExpressions, ih, List.map_cons]

theorem Outline.ofFields_eq (fields : List TableField) :
    ofFields fields = fields.map (·.outline) := by
  induction fields with
  | nil => rfl
  | cons f others ih => rw [ofFields, ih, List.map_cons]

theorem Outline.ofStatements_eq (block : List Statement) :
    ofStatements block = block.map (·.outline) := by
  induction block with
  | nil => rfl
  | cons s others ih => rw [ofStatements, ih, List.map_cons]

/-- The condition of a clause and its block. -/
def Clause.pair : Clause → Outline × Outline
  | .mk condition block => (condition.outline, .ofBlock (Outline.ofStatements block))

theorem Outline.ofClauses_eq (clauses : List Clause) :
    ofClauses clauses = (clauses.map Clause.pair).flatMap fun c => [c.1, c.2] := by
  induction clauses with
  | nil => rfl
  | cons c others ih =>
    rw [ofClauses, ih, List.map_cons, List.flatMap_cons]
    cases c
    rfl

theorem isExpression_of_mem {values : List Expression} :
    ∀ o ∈ Outline.ofExpressions values, o.head.isExpression := by
  rw [Outline.ofExpressions_eq]
  exact List.forall_mem_map.mpr fun e _ => e.isExpression_head

theorem isIdentifier_of_mem {ids : List Identifier} :
    ∀ o ∈ ids.map Outline.ofIdentifier, o.head.isIdentifier :=
  List.forall_mem_map.mpr fun _ _ => rfl

end Lists

section Operators

theorem BinaryOperator.allowsLeft {operator inner : BinaryOperator} {left : Expression}
    (h : operator.takesLeft left) (head : left.outline.head = .binary inner) :
    operator.AllowsLeft inner := by
  obtain ⟨first, second, rfl⟩ := Expression.eq_of_head_binary head
  simp only [takesLeft, Bool.or_eq_true, Bool.and_eq_true, decide_eq_true_eq, beq_iff_eq,
    Bool.not_eq_true'] at h
  rcases h with tighter | ⟨same, left⟩
  · exact .inl tighter
  · refine .inr ⟨same, ?_⟩
    rw [isRightAssociative_of_precedence same]
    exact left

theorem BinaryOperator.allowsRight {operator inner : BinaryOperator} {right : Expression}
    (h : operator.takesRight right) (head : right.outline.head = .binary inner) :
    operator.AllowsRight inner := by
  obtain ⟨first, second, rfl⟩ := Expression.eq_of_head_binary head
  simp only [takesRight, Bool.or_eq_true, Bool.and_eq_true, decide_eq_true_eq, beq_iff_eq] at h
  exact h

theorem BinaryOperator.le_of_takesLeft {operator : BinaryOperator} {inner : UnaryOperator}
    {left : Expression} (h : operator.takesLeft left) (head : left.outline.head = .unary inner) :
    operator.precedence ≤ UnaryOperator.precedence ∧ operator ≠ .power := by
  obtain ⟨operand, rfl⟩ := Expression.eq_of_head_unary head
  have weak : operator.precedence ≤ UnaryOperator.precedence := of_decide_eq_true h
  refine ⟨weak, ?_⟩
  rintro rfl
  exact absurd weak (by decide)

end Operators

section Leaves

open Outline (Everywhere EverywhereAll)

theorem Identifier.IsProper.isName {id : Identifier} (h : id.IsProper dialect) : Node.IsName dialect id :=
  ⟨h, (isWhole_of_isLexeme h).text_of_identifier rfl⟩

theorem Literal.IsProper.isLiteral {value : Literal} (h : value.IsProper dialect) :
    Node.IsLiteral dialect value := by
  have proper := Literal.isProper_word h
  refine ⟨proper.whole.isLexeme, proper.isSeen, fun truth kind => ?_⟩
  rw [Literal.IsProper, kind] at h
  exact h

theorem Identifier.IsProper.everywhere {id : Identifier} (h : id.IsProper dialect) :
    (Outline.ofIdentifier id).Everywhere (Node.Fits dialect) :=
  ⟨⟨trivial, rfl, h.isName⟩, trivial⟩

theorem everywhereAll_names {ids : List Identifier} (h : ∀ id ∈ ids, id.IsProper dialect) :
    EverywhereAll (Node.Fits dialect) (ids.map .ofIdentifier) :=
  Outline.everywhereAll_iff.mpr (List.forall_mem_map.mpr fun id member => (h id member).everywhere)

theorem Literal.IsProper.everywhere {value : Literal} (h : value.IsProper dialect) :
    (Outline.leaf (.literal value)).Everywhere (Node.Fits dialect) :=
  ⟨⟨trivial, rfl, h.isLiteral⟩, trivial⟩

/-- A path made of names obeys the rules, and is one. -/
theorem everywhere_path {base : Outline} {fields : List Identifier} (path : base.IsPath)
    (h : base.Everywhere (Node.Fits dialect)) (areNames : ∀ id ∈ fields, id.IsProper dialect) :
    let whole := fields.foldl (fun base field => .node .member [base, .ofIdentifier field]) base
    whole.IsPath ∧ whole.Everywhere (Node.Fits dialect) := by
  induction fields generalizing base with
  | nil => exact ⟨path, h⟩
  | cons field fields ih =>
    obtain ⟨isName, others⟩ := List.forall_mem_cons.mp areNames
    have fits : Node.Fits dialect .member [base, .ofIdentifier field] :=
      ⟨trivial, base, field, rfl, Node.isBase_of_isPath path⟩
    exact ih (path.field field) ⟨fits, h, isName.everywhere, trivial⟩ others

theorem FunctionName.IsProper.fits {name : FunctionName} (h : name.IsProper dialect) :
    Node.NamesFunction true false [name.outline] ∧
      name.outline.Everywhere (Node.Fits dialect) := by
  obtain ⟨root, fields, method⟩ := h
  obtain ⟨path, everywhere⟩ := everywhere_path (.name name.root) root.everywhere fields
  obtain ⟨first, others, _ | last⟩ := name
  · exact ⟨⟨_, path, .inl rfl⟩, everywhere⟩
  · refine ⟨⟨_, path, .inr ⟨last, rfl⟩⟩, ⟨trivial, _, last, rfl, ?_⟩, everywhere, ?_, trivial⟩
    · exact Node.isBase_of_isPath path
    · exact (method last rfl).everywhere

end Leaves

section Trees

open Outline (EverywhereAll everywhereAll_iff)

theorem Arguments.argumentsFit {arguments : Arguments} (h : arguments.IsProper dialect) :
    arguments.outlines.length = arguments.count ∧
      Node.ArgumentsFit arguments.form arguments.outlines := by
  cases arguments with
  | list values =>
    refine ⟨?_, isExpression_of_mem⟩
    rw [outlines, Outline.ofExpressions_eq, List.length_map]
    rfl
  | table fields => exact ⟨rfl, _, rfl, rfl⟩
  | string value => exact ⟨rfl, value, rfl, h.1⟩

theorem everywhere_ofTable {fields : List TableField}
    (h : EverywhereAll (Node.Fits dialect) (Outline.ofFields fields)) :
    (Outline.ofTable (Outline.ofFields fields)).Everywhere (Node.Fits dialect) := by
  refine ⟨⟨trivial, rfl, ?_⟩, h⟩
  rw [Outline.ofFields_eq]
  exact List.forall_mem_map.mpr fun f _ => f.isField_head

/-- Nothing follows a `return` in a proper block. -/
theorem isReturning_dropLast {block : List Statement} (h : Statement.IsProperAll dialect block) :
    ∀ o ∈ (Outline.ofStatements block).dropLast, o.head.isReturning = false := by
  rw [Outline.ofStatements_eq, ← List.map_dropLast]
  refine List.forall_mem_map.mpr fun s member => ?_
  rw [s.isReturning_head]
  induction block with
  | nil => exact absurd member List.not_mem_nil
  | cons first others ih =>
    obtain ⟨-, last, ofOthers⟩ := h
    cases others with
    | nil => exact absurd member List.not_mem_nil
    | cons second others =>
      rw [List.dropLast_cons_cons] at member
      rcases List.mem_cons.mp member with rfl | later
      · by_contra returns
        exact List.cons_ne_nil _ _ (last (Bool.not_eq_false _ ▸ returns))
      · exact ih ofOthers later

theorem everywhere_ofBlock {block : List Statement} (h : Statement.IsProperAll dialect block)
    (all : EverywhereAll (Node.Fits dialect) (Outline.ofStatements block)) :
    (Outline.ofBlock (Outline.ofStatements block)).Everywhere (Node.Fits dialect) := by
  refine ⟨⟨trivial, rfl, ?_, isReturning_dropLast h⟩, all⟩
  rw [Outline.ofStatements_eq]
  exact List.forall_mem_map.mpr fun s _ => s.isStatement_head

theorem everywhereAll_append {first second : List Outline} {rule : Node → List Outline → Prop}
    (h : EverywhereAll rule first) (g : EverywhereAll rule second) :
    EverywhereAll rule (first ++ second) :=
  everywhereAll_iff.mpr (List.forall_mem_append.mpr
    ⟨everywhereAll_iff.mp h, everywhereAll_iff.mp g⟩)

mutual

theorem Expression.everywhere : ∀ {e : Expression}, e.IsProper dialect →
    e.outline.Everywhere (Node.Fits dialect)
  | .literal _, h => Literal.IsProper.everywhere h
  | .name _, h => Identifier.IsProper.everywhere h
  | .group inner, h =>
    ⟨⟨trivial, _, rfl, inner.isExpression_head⟩, Expression.everywhere h, trivial⟩
  | .unary operator operand, ⟨_, isOperand, proper⟩ => by
    refine ⟨⟨⟨_, rfl, fun inner head => ?_⟩, _, rfl, operand.isExpression_head⟩,
      Expression.everywhere proper, trivial⟩
    obtain ⟨left, right, rfl⟩ := Expression.eq_of_head_binary head
    exact of_decide_eq_true isOperand
  | .binary operator left right, ⟨_, takesLeft, takesRight, ofLeft, ofRight⟩ => by
    refine ⟨⟨⟨_, _, rfl, fun _ => BinaryOperator.allowsRight takesRight,
      fun _ => BinaryOperator.allowsLeft takesLeft,
      fun _ => BinaryOperator.le_of_takesLeft takesLeft⟩,
      _, _, rfl, left.isExpression_head, right.isExpression_head⟩,
      Expression.everywhere ofLeft, Expression.everywhere ofRight, trivial⟩
  | .index base key, ⟨isBase, ofBase, ofKey⟩ =>
    ⟨⟨trivial, _, _, rfl, Expression.isBase_head isBase, key.isExpression_head⟩,
      Expression.everywhere ofBase, Expression.everywhere ofKey, trivial⟩
  | .member base field, ⟨isBase, ofBase, isName⟩ =>
    ⟨⟨trivial, _, field, rfl, Expression.isBase_head isBase⟩,
      Expression.everywhere ofBase, isName.everywhere, trivial⟩
  | .call callee arguments, ⟨isBase, ofCallee, ofArguments⟩ =>
    ⟨⟨trivial, _, _, rfl, .inl (Expression.isBase_head isBase),
      Arguments.argumentsFit ofArguments⟩,
      Expression.everywhere ofCallee, Arguments.everywhereAll ofArguments⟩
  | .methodCall object method arguments, ⟨isBase, ofObject, isName, ofArguments⟩ =>
    ⟨⟨trivial, _, _, rfl, .inr rfl, Arguments.argumentsFit ofArguments⟩,
      ⟨⟨trivial, _, method, rfl, Expression.isBase_head isBase⟩,
        Expression.everywhere ofObject, isName.everywhere, trivial⟩,
      Arguments.everywhereAll ofArguments⟩
  | .table _, h => everywhere_ofTable (TableField.everywhereAll h)
  | .function value, h => FunctionBody.everywhere (show Node.NamesFunction false false [] from rfl) trivial h

theorem Expression.everywhereAll : ∀ {values : List Expression},
    Expression.IsProperAll dialect values →
      EverywhereAll (Node.Fits dialect) (Outline.ofExpressions values)
  | [], _ => trivial
  | _ :: _, ⟨first, others⟩ => ⟨Expression.everywhere first, Expression.everywhereAll others⟩

theorem Arguments.everywhereAll : ∀ {arguments : Arguments}, arguments.IsProper dialect →
    EverywhereAll (Node.Fits dialect) arguments.outlines
  | .list _, h => Expression.everywhereAll h
  | .table _, h => ⟨everywhere_ofTable (TableField.everywhereAll h), trivial⟩
  | .string _, ⟨_, h⟩ => ⟨Literal.IsProper.everywhere h, trivial⟩

theorem TableField.everywhere : ∀ {f : TableField}, f.IsProper dialect →
    f.outline.Everywhere (Node.Fits dialect)
  | .value e, h => ⟨⟨trivial, _, rfl, e.isExpression_head⟩, Expression.everywhere h, trivial⟩
  | .keyed key e, ⟨ofKey, ofValue⟩ =>
    ⟨⟨trivial, _, _, rfl, key.isExpression_head, e.isExpression_head⟩,
      Expression.everywhere ofKey, Expression.everywhere ofValue, trivial⟩
  | .named name e, ⟨isName, ofValue⟩ =>
    ⟨⟨trivial, name, _, rfl, e.isExpression_head⟩, isName.everywhere,
      Expression.everywhere ofValue, trivial⟩

theorem TableField.everywhereAll : ∀ {fields : List TableField},
    TableField.IsProperAll dialect fields →
      EverywhereAll (Node.Fits dialect) (Outline.ofFields fields)
  | [], _ => trivial
  | _ :: _, ⟨first, others⟩ => ⟨TableField.everywhere first, TableField.everywhereAll others⟩

/-- A function obeys the rules behind a name that does. -/
theorem FunctionBody.everywhere : ∀ {value : FunctionBody} {isLocal : Bool} {name : List Outline},
    Node.NamesFunction (!name.isEmpty) isLocal name → EverywhereAll (Node.Fits dialect) name →
      value.IsProper dialect → (value.outline isLocal name).Everywhere (Node.Fits dialect)
  | .mk parameters _ _, _, name, names, ofName, ⟨areNames, ofBlock⟩ => by
    refine ⟨⟨trivial, name, _, _, rfl, names, List.length_map .., isIdentifier_of_mem, rfl⟩, ?_⟩
    refine everywhereAll_append (everywhereAll_append ofName (everywhereAll_names areNames)) ?_
    exact ⟨everywhere_ofBlock ofBlock (Statement.everywhereAll ofBlock), trivial⟩

theorem Clause.everywhereAll : ∀ {clauses : List Clause}, Clause.IsProperAll dialect clauses →
    EverywhereAll (Node.Fits dialect) (Outline.ofClauses clauses)
  | [], _ => trivial
  | .mk _ _ :: _, ⟨⟨ofCondition, ofBlock⟩, others⟩ =>
    ⟨Expression.everywhere ofCondition,
      everywhere_ofBlock ofBlock (Statement.everywhereAll ofBlock), Clause.everywhereAll others⟩

theorem Statement.everywhere : ∀ {s : Statement}, s.IsProper dialect →
    s.outline.Everywhere (Node.Fits dialect)
  | .localVariables _ _, ⟨named, areNames, ofValues⟩ => by
    refine ⟨⟨trivial, _, _, rfl, List.length_map .., ?_, ?_, isIdentifier_of_mem,
      isExpression_of_mem⟩, ?_⟩
    · rw [Outline.ofExpressions_eq, List.length_map]
    · exact fun none => named (List.map_eq_nil_iff.mp none)
    · exact everywhereAll_append (everywhereAll_names areNames) (Expression.everywhereAll ofValues)
  | .assignment targets values, ⟨anyTarget, anyValue, assignable, ofTargets, ofValues⟩ => by
    refine ⟨⟨trivial, _, _, rfl, ?_, ?_, ?_, ?_, ?_, isExpression_of_mem⟩, ?_⟩
    · rw [Outline.ofExpressions_eq, List.length_map]
    · rw [Outline.ofExpressions_eq, List.length_map]
    · rw [Outline.ofExpressions_eq]
      exact fun none => anyTarget (List.map_eq_nil_iff.mp none)
    · rw [Outline.ofExpressions_eq]
      exact fun none => anyValue (List.map_eq_nil_iff.mp none)
    · rw [Outline.ofExpressions_eq]
      exact List.forall_mem_map.mpr fun e member => Expression.isTarget_head (assignable e member)
    · exact everywhereAll_append (Expression.everywhereAll ofTargets)
        (Expression.everywhereAll ofValues)
  | .call _, ⟨isCall, proper⟩ =>
    ⟨⟨trivial, _, rfl, Expression.isCall_head isCall⟩, Expression.everywhere proper, trivial⟩
  | .conditional clauses otherwise, ⟨guarded, ofClauses, ofElse⟩ => by
    refine ⟨⟨trivial, clauses.map Clause.pair, otherwise.map fun block =>
      .ofBlock (Outline.ofStatements block), ?_, List.length_map .., ?_, ?_, ?_, ?_⟩,
      everywhereAll_append (Clause.everywhereAll ofClauses) (Statement.everywhereElse ofElse)⟩
    · rw [Outline.ofClauses_eq]
      cases otherwise <;> rfl
    · exact Option.isSome_map
    · exact fun none => guarded (List.map_eq_nil_iff.mp none)
    · refine List.forall_mem_map.mpr fun c _ => ?_
      cases c
      exact ⟨Expression.isExpression_head _, rfl⟩
    · intro body member
      obtain ⟨block, -, rfl⟩ := Option.map_eq_some_iff.mp member
      rfl
  | .whileLoop condition block, ⟨ofCondition, ofBlock⟩ =>
    ⟨⟨trivial, _, _, rfl, condition.isExpression_head, rfl⟩, Expression.everywhere ofCondition,
      everywhere_ofBlock ofBlock (Statement.everywhereAll ofBlock), trivial⟩
  | .repeatLoop block condition, ⟨ofBlock, ofCondition⟩ =>
    ⟨⟨trivial, _, _, rfl, rfl, condition.isExpression_head⟩,
      everywhere_ofBlock ofBlock (Statement.everywhereAll ofBlock),
      Expression.everywhere ofCondition, trivial⟩
  | .numericFor counter first last step block, ⟨isName, ofFirst, ofLast, ofStep, ofBlock⟩ => by
    refine ⟨⟨trivial, .ofIdentifier counter, first.outline :: last.outline :: Outline.ofStep step,
      .ofBlock (Outline.ofStatements block), rfl, ?_, rfl, ?_, rfl⟩, isName.everywhere,
      Expression.everywhere ofFirst, Expression.everywhere ofLast,
      everywhereAll_append (Expression.everywhereStep ofStep)
        ⟨everywhere_ofBlock ofBlock (Statement.everywhereAll ofBlock), trivial⟩⟩
    · cases step <;> rfl
    · refine List.forall_mem_cons.mpr ⟨first.isExpression_head,
        List.forall_mem_cons.mpr ⟨last.isExpression_head, ?_⟩⟩
      cases step with
      | none => exact fun _ none => absurd none List.not_mem_nil
      | some step =>
        intro o member
        rw [List.mem_singleton.mp member]
        exact step.isExpression_head
  | .genericFor _ _ block, ⟨named, anyValue, areNames, ofValues, ofBlock⟩ => by
    refine ⟨⟨trivial, _, _, _, rfl, List.length_map .., ?_, ?_, ?_, isIdentifier_of_mem,
      isExpression_of_mem, rfl⟩, ?_⟩
    · rw [Outline.ofExpressions_eq, List.length_map]
    · exact fun none => named (List.map_eq_nil_iff.mp none)
    · rw [Outline.ofExpressions_eq]
      exact fun none => anyValue (List.map_eq_nil_iff.mp none)
    · refine everywhereAll_append (everywhereAll_append (everywhereAll_names areNames)
        (Expression.everywhereAll ofValues)) ?_
      exact ⟨everywhere_ofBlock ofBlock (Statement.everywhereAll ofBlock), trivial⟩
  | .doBlock _, h =>
    ⟨⟨trivial, _, rfl, rfl⟩, everywhere_ofBlock h (Statement.everywhereAll h), trivial⟩
  | .returning values, h => by
    refine ⟨⟨trivial, ?_, isExpression_of_mem⟩, Expression.everywhereAll h⟩
    rw [Outline.ofExpressions_eq, List.length_map]
  | .breakLoop, _ => ⟨⟨trivial, rfl⟩, trivial⟩
  | .goto label, ⟨_, isName⟩ => ⟨⟨trivial, label, rfl⟩, isName.everywhere, trivial⟩
  | .label name, ⟨_, isName⟩ => ⟨⟨trivial, name, rfl⟩, isName.everywhere, trivial⟩
  | .localFunction name _, ⟨isName, ofValue⟩ =>
    FunctionBody.everywhere ⟨name, rfl⟩ ⟨isName.everywhere, trivial⟩ ofValue
  | .function _ _, ⟨isName, ofValue⟩ =>
    FunctionBody.everywhere isName.fits.1 ⟨isName.fits.2, trivial⟩ ofValue

theorem Statement.everywhereElse : ∀ {otherwise : Option (List Statement)},
    Statement.IsProperElse dialect otherwise →
      EverywhereAll (Node.Fits dialect) (Outline.ofOtherwise otherwise)
  | none, _ => trivial
  | some _, h => ⟨everywhere_ofBlock h (Statement.everywhereAll h), trivial⟩

theorem Expression.everywhereStep : ∀ {step : Option Expression},
    Expression.IsProperStep dialect step →
      EverywhereAll (Node.Fits dialect) (Outline.ofStep step)
  | none, _ => trivial
  | some _, h => ⟨Expression.everywhere h, trivial⟩

theorem Statement.everywhereAll : ∀ {block : List Statement},
    Statement.IsProperAll dialect block →
      EverywhereAll (Node.Fits dialect) (Outline.ofStatements block)
  | [], _ => trivial
  | _ :: _, ⟨first, _, others⟩ => ⟨Statement.everywhere first, Statement.everywhereAll others⟩

end

end Trees

/-- What a text is parsed to is a proper tree, all of which obeys the rules. -/
theorem parse_isProper {options : Options} {source : String} {chunk : Chunk}
    (h : parse options source = .ok chunk) :
    Statement.IsProperAll options.toDialect chunk.block := by
  obtain ⟨c, d, opened, run⟩ := parse_ok.mp h
  exact (Grammar.gives_chunk _ (Cursor.isLegible_ofSource opened) trivial run).2

/-- What is computed from the outcome of a parse is computed from the program that was read. -/
theorem exists_of_parse_map {α : Type} {options : Options} {source : String} {f : Chunk → α}
    {value : α} (h : (parse options source).toOption.map f = some value) :
    ∃ chunk, parse options source = .ok chunk ∧ f chunk = value := by
  obtain ⟨chunk, found, same⟩ := Option.map_eq_some_iff.mp h
  cases parsed : parse options source with
  | error e =>
    rw [parsed] at found
    cases found
  | ok other =>
    rw [parsed] at found
    cases found
    exact ⟨chunk, rfl, same⟩

/-- The outline of a program is found by parsing, and says what every program is said to be. -/
theorem exists_of_preorder {options : Options} {source : String} {nodes : List (Nat × Node)}
    {good : Chunk → Prop}
    (h : (parse options source).toOption.map (·.outline.preorder) = some nodes)
    (all : ∀ {chunk}, parse options source = .ok chunk → good chunk) :
    ∃ chunk, parse options source = .ok chunk ∧ chunk.outline.preorder = nodes ∧ good chunk := by
  obtain ⟨chunk, parsed, same⟩ := exists_of_parse_map h
  exact ⟨chunk, parsed, same, all parsed⟩

theorem Chunk.everywhere {chunk : Chunk} (h : Statement.IsProperAll dialect chunk.block) :
    chunk.outline.Everywhere (Node.Fits dialect) :=
  ⟨⟨trivial, _, rfl, rfl⟩, everywhere_ofBlock h (Statement.everywhereAll h), trivial⟩

/-- In every tree, operators are nested by precedence and associativity: an operand without
parentheses binds tighter than the operator that it is an operand of, or as tight and on the side to
which the operators group. -/
theorem operators_nest_by_precedence {options : Options} {source : String} {chunk : Chunk}
    (h : parse options source = .ok chunk) : chunk.outline.Everywhere Node.OperandsFit :=
  (Chunk.everywhere (parse_isProper h)).mono fun _ _ fits => fits.1

/-- A sign in front of a power, a product and a difference. -/
theorem operators_nest_in_difference :
    ∃ chunk, parse .forParser "x=-a^b*c-d" = .ok chunk ∧
      chunk.outline.preorder = [(0, .chunk), (1, .block 1), (2, .assignment 1 1),
        (3, .identifier ⟨"x", ⟨0, 1⟩⟩), (3, .binary .subtract), (4, .binary .multiply),
        (5, .unary .negate), (6, .binary .power), (7, .identifier ⟨"a", ⟨3, 4⟩⟩),
        (7, .identifier ⟨"b", ⟨5, 6⟩⟩), (5, .identifier ⟨"c", ⟨7, 8⟩⟩),
        (4, .identifier ⟨"d", ⟨9, 10⟩⟩)] ∧
      chunk.outline.Everywhere Node.OperandsFit := by
  exact exists_of_preorder (by decide +kernel) operators_nest_by_precedence

/-- In every tree, every node has the parts that belong to it. -/
theorem parsed_nodes_have_their_parts {options : Options} {source : String} {chunk : Chunk}
    (h : parse options source = .ok chunk) :
    chunk.outline.Everywhere (Node.PartsFit options.toDialect) :=
  (Chunk.everywhere (parse_isProper h)).mono fun _ _ fits => fits.2

/-- A method that is defined on a path, and returns a call of another one. -/
theorem parts_of_method_definition :
    ∃ chunk, parse .forParser "function a.b:c(...)return d:e{}end" = .ok chunk ∧
      chunk.outline.preorder = [(0, .chunk), (1, .block 1), (2, .function true false 0 true),
        (3, .method), (4, .member), (5, .identifier ⟨"a", ⟨9, 10⟩⟩),
        (5, .identifier ⟨"b", ⟨11, 12⟩⟩), (4, .identifier ⟨"c", ⟨13, 14⟩⟩), (3, .block 1),
        (4, .returning 1), (5, .call .table 1), (6, .method), (7, .identifier ⟨"d", ⟨26, 27⟩⟩),
        (7, .identifier ⟨"e", ⟨28, 29⟩⟩), (6, .table 0)] ∧
      chunk.outline.Everywhere (Node.PartsFit (Options.toDialect .forParser)) := by
  exact exists_of_preorder (by decide +kernel) parsed_nodes_have_their_parts

end LuaFrontend
