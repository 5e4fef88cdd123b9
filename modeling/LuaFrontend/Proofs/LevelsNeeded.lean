import LuaFrontend.Grammar.Chunk
import LuaFrontend.Proofs.Room

set_option autoImplicit false

namespace LuaFrontend

open LuaFrontend.Parser

/-- Levels that are enough for a form, if no more than this is before the end. -/
def Form.need (room : Nat) : Form → Nat
  | block => 3 * room + 3
  | operand _ => 3 * room + 3
  | suffixed => 3 * room + 2
  | table => 3 * room + 1
  | arguments => 3 * room + 4

namespace Grammar

/-- With this many levels the forms do not reach the limit where so many are enough. -/
def FitsForms (depth : Nat) (below : Below) : Prop :=
  ∀ form room, form.need room ≤ depth → Fits room (below form)

variable {depth room : Nat} {below : Below}

section Expressions

theorem fits_expression? (h : FitsForms depth below) (enough : 3 * room + 3 ≤ depth) :
    Fits room (expression? below) :=
  fits_production _ (h (.operand 0) room enough)

theorem fits_expression (h : FitsForms depth below) (enough : 3 * room + 3 ≤ depth) :
    Fits room (expression below) :=
  fits_required _ (fits_expression? h enough)

theorem fits_expressionList (h : FitsForms depth below) (enough : 3 * room + 3 ≤ depth) :
    Fits room (expressionList below) :=
  fits_commaSeparated fun _ _ => fits_expression h (by omega)

theorem fits_parameter (list : Parameters) : Fits room (parameter list) := by
  refine fits_ite (fits_pure none) (fits_current_bind fun t _ => fits_ite ?_ ?_)
  · exact fits_identifier.bind fun _ => (fits_takes ",").bind fun _ => fits_pure _
  · refine fits_consume_bind (fun t vararg => ?_) (fun _ _ => fits_pure _) (fits_expected _)
    simp only [Pattern.accepts, beq_iff_eq] at vararg
    simp [Inside, Token.isEnd, vararg]

theorem fits_parameters : Fits room parameters := by
  refine fits_expect_bind fun _ _ => fits_takes_bind (fun _ _ => fits_pure _) ?_
  exact (fits_grow fits_parameter _).bind fun _ => fits_expect_bind fun _ _ => fits_pure _

theorem fits_functionBody (h : FitsForms depth below) (enough : 3 * room + 3 ≤ depth) :
    Fits room (functionBody below) := by
  refine fits_production _ (fits_parameters.bind fun _ => ?_)
  exact (h .block room enough).bind fun _ => fits_expect_bind fun _ _ => fits_pure _

theorem fits_isKey : Fits room isKey :=
  fits_current_bind fun _ _ => fits_ite (fits_nextMatchesAny _) (fits_pure false)

theorem fits_field? (h : FitsForms depth below) (enough : 3 * room + 3 ≤ depth) :
    Fits room (field? below) := by
  refine fits_takes_bind (fun less small => ?_) (fits_isKey.bind fun key => fits_ite ?_ ?_)
  · refine (fits_expression h (by omega)).bind fun _ => fits_expect_bind fun _ _ =>
      fits_expect_bind fun _ _ => ?_
    exact (fits_expression h (by omega)).bind fun _ => fits_pure _
  · refine fits_current_bind fun t _ => (fits_discard (fits_consumeNext _)).bind fun _ => ?_
    exact (fits_expression h enough).bind fun _ => fits_pure _
  · exact (fits_expression? h enough).bind fun _ => fits_pure _

theorem fits_separator : Fits room separator :=
  fits_get_bind fun _ _ => fits_ite (fits_advance.bind fun _ => fits_pure true) (fits_pure false)

theorem fits_fields (h : FitsForms depth below) (enough : 3 * room + 3 ≤ depth) :
    Fits room (fields below) := by
  have next : Fits room (do if ← separator then field? below else return none) :=
    fits_separator.bind fun _ => fits_ite (fits_field? h enough) (fits_pure none)
  refine (fits_field? h enough).bind fun first => ?_
  cases first with
  | some first => exact (fits_many next).bind fun _ => fits_pure _
  | none => exact fits_pure []

theorem fits_table (h : FitsForms depth below) (enough : 3 * room ≤ depth) :
    Fits room (table below) := by
  refine fits_production _ (fits_expect_bind fun less small => ?_)
  exact (fits_fields h (by omega)).bind fun _ => fits_expect_bind fun _ _ => fits_pure _

theorem fits_arguments (h : FitsForms depth below) (enough : 3 * room + 3 ≤ depth) :
    Fits room (arguments below) :=
  fits_get_bind fun _ _ => fits_ite (fits_pure []) (fits_expressionList h enough).from

theorem fits_callArguments? (h : FitsForms depth below) (enough : 3 * room + 1 ≤ depth) :
    Fits room (callArguments? below) := by
  refine fits_current_bind fun t _ => fits_takes_bind (fun less small => ?_) ?_
  · have values := h .arguments less (by simp only [Form.need]; omega)
    exact values.bind fun _ => fits_expect_bind fun _ _ => fits_pure _
  · refine fits_get_bind fun _ _ => fits_ite ?_ (fits_ite ?_ (fits_pure none))
    · exact (h .table room enough).from.bind fun _ => fits_pure _
    · exact fits_advance.bind fun _ => fits_pure _

theorem fits_base? (h : FitsForms depth below) (enough : 3 * room ≤ depth) :
    Fits room (base? below) := by
  refine fits_current_bind fun t _ => fits_ite ?_ (fits_takes_bind (fun less small => ?_) ?_)
  · exact fits_identifier.bind fun _ => fits_pure _
  · refine (fits_expression h (by omega)).bind fun _ => ?_
    exact fits_expect_bind fun _ _ => fits_pure _
  · exact fits_pure none

theorem fits_suffix? (h : FitsForms depth below) (enough : 3 * room + 1 ≤ depth)
    (base : Expression) : Fits room (suffix? below base) := by
  refine fits_takes_bind (fun less small => ?_) (fits_takes_bind (fun _ _ => ?_)
    (fits_takes_bind (fun less small => ?_) ?_))
  · refine (fits_expression h (by omega)).bind fun _ => ?_
    exact fits_expect_bind fun _ _ => fits_pure _
  · exact fits_identifier.bind fun _ => fits_pure _
  · refine fits_identifier.bind fun _ => ?_
    exact (fits_required _ (fits_callArguments? h (by omega))).bind fun _ => fits_pure _
  · exact (fits_callArguments? h enough).bind fun _ => fits_pure _

theorem fits_suffixed (h : FitsForms depth below) (enough : 3 * room + 1 ≤ depth) :
    Fits room (suffixed below) := by
  refine fits_production _ ((fits_base? h (by omega)).bind fun base => ?_)
  cases base with
  | some base => exact (fits_grow (fits_suffix? h enough) base).bind fun _ => fits_pure _
  | none => exact fits_pure none

theorem fits_primary? (h : FitsForms depth below) (enough : 3 * room + 2 ≤ depth) :
    Fits room (primary? below) := by
  refine fits_production _ (fits_current_bind fun t _ => ?_)
  cases Literal.ofToken? t with
  | some value => exact fits_advance.bind fun _ => fits_pure _
  | none =>
    refine fits_takes_bind (fun less small => ?_) (fits_get_bind fun _ _ => fits_ite ?_ ?_)
    · exact (fits_functionBody h (by omega)).bind fun _ => fits_pure _
    · have fields := h .table room (by simp only [Form.need]; omega)
      exact fields.from.bind fun _ => fits_pure _
    · exact (h .suffixed room enough).from

theorem isEnd_of_isOperatorKind {t : Token} (h : isOperatorKind t.kind) : Inside t := by
  simp only [isOperatorKind, Bool.or_eq_true, beq_iff_eq] at h
  rcases h with same | same <;> simp [Inside, Token.isEnd, same]

theorem inside_of_unaryOperator? {t : Token} {operator : UnaryOperator}
    (h : unaryOperator? t = some operator) : Inside t := by
  unfold unaryOperator? at h
  split at h
  · next kind => exact isEnd_of_isOperatorKind kind
  · cases h

theorem inside_of_binaryOperator? {t : Token} {operator : BinaryOperator}
    (h : binaryOperator? t = some operator) : Inside t := by
  unfold binaryOperator? at h
  split at h
  · next kind => exact isEnd_of_isOperatorKind kind
  · cases h

theorem fits_prefixed? (h : FitsForms depth below) (enough : 3 * room + 2 ≤ depth) :
    Fits room (prefixed? below) := by
  refine fits_current_bind fun t _ => ?_
  cases found : unaryOperator? t with
  | none => exact (fits_primary? h enough).from
  | some operator =>
    refine (fits_advance_bind fun less small => ?_).at (inside_of_unaryOperator? found)
    have operand := h (.operand UnaryOperator.precedence) less (by simp only [Form.need]; omega)
    exact (fits_required _ operand).bind fun _ => fits_pure _

theorem fits_joined? (h : FitsForms depth below) (enough : 3 * room + 2 ≤ depth) (limit : Nat)
    (left : Expression) : Fits room (joined? below limit left) := by
  refine fits_current_bind fun t _ => ?_
  cases found : binaryOperator? t with
  | none => exact fits_pure none
  | some operator =>
    refine fits_ite (fits_pure none) ?_
    refine (fits_advance_bind fun less small => ?_).at (inside_of_binaryOperator? found)
    have operand := h (.operand operator.rightLimit) less (by simp only [Form.need]; omega)
    exact (fits_required _ operand).bind fun _ => fits_pure _

theorem fits_operand (h : FitsForms depth below) (enough : 3 * room + 2 ≤ depth) (limit : Nat) :
    Fits room (operand below limit) := by
  refine (fits_prefixed? h enough).bind fun left => ?_
  cases left with
  | some left => exact (fits_grow (fits_joined? h enough limit) left).bind fun _ => fits_pure _
  | none => exact fits_pure none

end Expressions

section Statements

theorem fits_localDeclaration (h : FitsForms depth below) (enough : 3 * room ≤ depth) :
    FitsFrom Inside room (localDeclaration below) := by
  refine fits_production _ (fits_advance_bind fun less small => fits_takes_bind ?_ ?_)
  · intro fewer smaller
    refine fits_identifier.bind fun _ => ?_
    exact (fits_functionBody h (by omega)).bind fun _ => fits_pure _
  · refine (fits_commaSeparated fun _ _ => fits_identifier).bind fun _ => ?_
    refine (fits_behind fun _ _ => ?_).bind fun _ => fits_pure _
    exact fits_expressionList h (by omega)

theorem fits_clause (h : FitsForms depth below) (enough : 3 * room ≤ depth) :
    FitsFrom Inside room (clause below) := by
  refine fits_advance_bind fun less small => (fits_expression h (by omega)).bind fun _ => ?_
  refine fits_expect_bind fun fewer _ => ?_
  have block := h .block fewer (by simp only [Form.need]; omega)
  exact block.bind fun _ => fits_pure _

theorem inside_of_isWord {t : Token} {text : String} (h : t.isWord text) : Inside t := by
  simp only [Token.isWord, Token.isKeyword, Bool.and_eq_true, beq_iff_eq] at h
  simp [Inside, Token.isEnd, h.1]

theorem fits_elseClause? (h : FitsForms depth below) (enough : 3 * room ≤ depth) :
    Fits room (elseClause? below) := by
  refine fits_current_bind fun t _ => ?_
  split
  · next word =>
    exact ((fits_clause h enough).at (inside_of_isWord word)).bind fun _ => fits_pure _
  · exact fits_pure none

theorem fits_conditional (h : FitsForms depth below) (enough : 3 * room ≤ depth) :
    FitsFrom Inside room (conditional below) := by
  refine fits_production _ ((fits_clause h enough).bind fun _ => ?_)
  refine (fits_many (fits_elseClause? h enough)).bind fun _ => ?_
  refine (fits_behind fun less small => ?_).bind fun _ => fits_expect_bind fun _ _ => fits_pure _
  exact h .block less (by simp only [Form.need]; omega)

theorem fits_functionStatement (h : FitsForms depth below) (enough : 3 * room ≤ depth) :
    FitsFrom Inside room (functionStatement below) := by
  refine fits_production _ (fits_advance_bind fun less small => ?_)
  refine fits_identifier.bind fun _ => ?_
  refine (fits_many (fits_behind fun _ _ => fits_identifier)).bind fun _ => ?_
  refine (fits_behind fun _ _ => fits_identifier).bind fun _ => ?_
  exact (fits_functionBody h (by omega)).bind fun _ => fits_pure _

theorem fits_enclosedBlock (h : FitsForms depth below) (enough : 3 * room ≤ depth) :
    Fits room (enclosedBlock below) := by
  refine fits_expect_bind fun less small => ?_
  have block := h .block less (by simp only [Form.need]; omega)
  exact block.bind fun _ => fits_expect_bind fun _ _ => fits_pure _

theorem fits_whileLoop (h : FitsForms depth below) (enough : 3 * room ≤ depth) :
    FitsFrom Inside room (whileLoop below) := by
  refine fits_production _ (fits_advance_bind fun less small => ?_)
  refine (fits_expression h (by omega)).bind fun _ => ?_
  exact (fits_enclosedBlock h (by omega)).bind fun _ => fits_pure _

theorem fits_forLoop (h : FitsForms depth below) (enough : 3 * room ≤ depth) :
    FitsFrom Inside room (forLoop below) := by
  refine fits_production _ (fits_advance_bind fun less small => fits_identifier.bind fun _ => ?_)
  refine fits_takes_bind (fun fewer smaller => ?_) ?_
  · refine (fits_expression h (by omega)).bind fun _ => fits_expect_bind fun _ _ => ?_
    refine (fits_expression h (by omega)).bind fun _ => ?_
    refine (fits_behind fun _ _ => fits_expression h (by omega)).bind fun _ => ?_
    exact (fits_enclosedBlock h (by omega)).bind fun _ => fits_pure _
  · refine (fits_many (fits_behind fun _ _ => fits_identifier)).bind fun _ => ?_
    refine fits_expect_bind fun _ _ => (fits_expressionList h (by omega)).bind fun _ => ?_
    exact (fits_enclosedBlock h (by omega)).bind fun _ => fits_pure _

theorem fits_repeatLoop (h : FitsForms depth below) (enough : 3 * room ≤ depth) :
    FitsFrom Inside room (repeatLoop below) := by
  refine fits_production _ (fits_advance_bind fun less small => ?_)
  have block := h .block less (by simp only [Form.need]; omega)
  refine block.bind fun _ => fits_expect_bind fun _ _ => ?_
  exact (fits_expression h (by omega)).bind fun _ => fits_pure _

theorem fits_doBlock (h : FitsForms depth below) (enough : 3 * room ≤ depth) :
    Fits room (doBlock below) :=
  fits_production _ ((fits_enclosedBlock h enough).bind fun _ => fits_pure _)

theorem fits_goto : Fits room goto :=
  fits_production _ (fits_advance.bind fun _ => fits_identifier.bind fun _ => fits_pure _)

theorem fits_label : Fits room label :=
  fits_production _ (fits_advance.bind fun _ => fits_identifier.bind fun _ =>
    fits_expect_bind fun _ _ => fits_pure _)

theorem fits_target (h : FitsForms depth below) (enough : 3 * room + 2 ≤ depth) :
    Fits room (target below) := by
  refine (h .suffixed room enough).bind fun value => ?_
  cases value with
  | some value => exact fits_pure value
  | none => exact fits_unexpected

theorem fits_assignmentOrCall (h : FitsForms depth below) (enough : 3 * room + 2 ≤ depth) :
    Fits room (assignmentOrCall below) := by
  refine fits_production _ ((fits_target h enough).bind fun first => fits_get_bind fun _ _ => ?_)
  refine fits_ite ?_ (fits_ite (fits_pure _) fits_unexpected)
  have others : Fits room (afterCommas (target below)) :=
    fits_many (fits_behind fun _ _ => fits_target h (by omega))
  refine others.from.bind fun _ => fits_ite (fits_expect_bind fun _ _ => ?_) fits_unexpected
  exact (fits_expressionList h (by omega)).bind fun _ => fits_pure _

theorem fits_isJump : Fits room isJump :=
  fits_get_bind fun _ _ => fits_ite (fits_nextMatchesAny _) (fits_pure false)

theorem fits_statement (h : FitsForms depth below) (enough : 3 * room + 2 ≤ depth) :
    FitsFrom Inside room (statement below) := by
  have few : 3 * room ≤ depth := by omega
  refine fits_production _ (fits_current_bind fun t inside => ?_)
  cases Heading.ofToken t with
  | localDeclaration => exact (fits_localDeclaration h few).at inside
  | conditional => exact (fits_conditional h few).at inside
  | function => exact (fits_functionStatement h few).at inside
  | whileLoop => exact (fits_whileLoop h few).at inside
  | forLoop => exact (fits_forLoop h few).at inside
  | repeatLoop => exact (fits_repeatLoop h few).at inside
  | doBlock => exact (fits_doBlock h few).from
  | goto => exact fits_goto.from
  | breakLoop => exact fits_advance.bind fun _ => fits_pure _
  | label => exact fits_label.from
  | gotoName =>
    exact fits_isJump.from.bind fun _ => fits_ite fits_goto (fits_assignmentOrCall h enough)
  | assignmentOrCall => exact (fits_assignmentOrCall h enough).from

theorem fits_returning (h : FitsForms depth below) (enough : 3 * room ≤ depth) :
    FitsFrom Inside room (returning below) := by
  refine fits_production _ (fits_advance_bind fun less small => ?_)
  have values : Fits less (returnedValues below) := by
    refine fits_current_bind fun _ _ => fits_get_bind fun _ _ => ?_
    exact fits_ite (fits_expressionList h (by omega)).from (fits_pure [])
  exact values.bind fun _ => (fits_discard (fits_takes ";")).bind fun _ => fits_pure _

theorem fits_statement? (h : FitsForms depth below) (enough : 3 * room + 2 ≤ depth) :
    Fits room (statement? below) := by
  have semicolons : Fits room (discard (many (behind ";" (pure ())))) :=
    fits_discard (fits_many (fits_behind fun _ _ => fits_pure ()))
  refine semicolons.bind fun _ => fits_current_bind fun t _ => ?_
  split
  · next more =>
    simp only [isInBlock, Bool.and_eq_true, Bool.not_eq_true'] at more
    exact ((fits_statement h enough).at more.1.1).bind fun _ => fits_pure _
  · exact fits_pure none

theorem fits_block (h : FitsForms depth below) (enough : 3 * room + 2 ≤ depth) :
    Fits room (block below) := by
  refine fits_production _ ((fits_many (fits_statement? h enough)).bind fun _ => ?_)
  refine fits_current_bind fun t _ => ?_
  split
  · next word =>
    have last := fits_returning h (show 3 * room ≤ depth by omega)
    exact (last.at (inside_of_isWord word)).bind fun _ => fits_pure _
  · exact fits_pure _

end Statements

/-- Every form has room enough with as many levels as it needs. -/
theorem fits_levels (depth : Nat) : FitsForms depth (levels depth) := by
  induction depth with
  | zero => intro form room enough; cases form <;> simp only [Form.need] at enough <;> omega
  | succ depth ih =>
    intro form room enough
    cases form with
    | block => exact fits_block ih (by simp only [Form.need] at enough; omega)
    | operand limit => exact fits_operand ih (by simp only [Form.need] at enough; omega) limit
    | suffixed => exact fits_suffixed ih (by simp only [Form.need] at enough; omega)
    | table => exact fits_table ih (by simp only [Form.need] at enough; omega)
    | arguments => exact fits_arguments ih (by simp only [Form.need] at enough; omega)

/-- A text does not reach the limit if there are three levels for each of its tokens. -/
theorem fits_chunk {depth room : Nat} (enough : 3 * room + 3 ≤ depth) :
    Fits room (chunk depth) := by
  refine fits_production _ ((fits_levels depth .block room enough).bind fun _ => ?_)
  refine fits_current_bind fun _ _ => fits_ite ?_ fits_unexpected
  have taken : Fits room (liftM Cursor.takeComments : Parser (List Token)) :=
    fun _ fits _ => ⟨fits.input, fits.length⟩
  exact taken.from.bind fun _ => fits_pure _

end Grammar
end LuaFrontend
