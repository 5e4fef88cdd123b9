import LuaFrontend.Proofs.ProperExpressions

set_option autoImplicit false

namespace LuaFrontend.Grammar

open LuaFrontend.Parser

variable {dialect : Dialect} {below : Below}

variable (dialect) in
/-- Proper, and other statements may follow. -/
def Continued (s : Statement) : Prop := s.IsProper dialect ∧ s.isReturn = false

theorem gives_localDeclaration (h : GivesForms dialect below) :
    Gives dialect (localDeclaration below) (Continued dialect) := by
  refine leaves_production (gives_advance.bind fun _ _ => (gives_takes _).bind fun _ _ =>
    leaves_ite (fun _ => ?_) fun _ => ?_)
  · refine gives_identifier.bind fun name isName => (gives_functionBody h).bind fun value proper => ?_
    exact gives_pure ⟨⟨isName, proper⟩, rfl⟩
  · refine (gives_commaSeparated gives_identifier).bind fun names areNames => ?_
    refine (gives_behind (gives_expressionList h)).bind fun values all => ?_
    have proper : Expression.IsProperAll dialect (values.getD []) := by
      cases values with
      | none => trivial
      | some values => exact (all values rfl).2
    exact gives_pure ⟨⟨areNames.1, areNames.2, proper⟩, rfl⟩

theorem gives_clause (h : GivesForms dialect below) :
    Gives dialect (clause below) (·.IsProper dialect) := by
  refine gives_advance.bind fun _ _ => (gives_expression h).bind fun condition proper => ?_
  exact (gives_expect _).bind fun _ _ => h.block.bind fun block all => gives_pure ⟨proper, all⟩

theorem gives_elseClause? (h : GivesForms dialect below) :
    Gives dialect (elseClause? below) fun result => ∀ c ∈ result, c.IsProper dialect := by
  refine leaves_current_bind fun _ _ _ => leaves_ite (fun _ => ?_) fun _ => gives_none
  exact (gives_clause h).bind fun _ proper => gives_some proper

theorem gives_conditional (h : GivesForms dialect below) :
    Gives dialect (conditional below) (Continued dialect) := by
  refine leaves_production ((gives_clause h).bind fun first ofFirst =>
    (gives_many (gives_elseClause? h)).bind fun others ofOthers =>
      (gives_behind h.block).bind fun otherwise ofElse => (gives_expect _).bind fun _ _ => ?_)
  refine gives_pure ⟨⟨List.cons_ne_nil _ _, ⟨ofFirst, Clause.isProperAll_iff.mpr ofOthers⟩, ?_⟩, rfl⟩
  cases otherwise with
  | none => trivial
  | some block => exact ofElse block rfl

theorem gives_functionStatement (h : GivesForms dialect below) :
    Gives dialect (functionStatement below) (Continued dialect) := by
  refine leaves_production (gives_advance.bind fun _ _ => gives_identifier.bind fun root isName =>
    (gives_many (gives_behind gives_identifier)).bind fun fields areNames =>
      (gives_behind gives_identifier).bind fun method isMethod => ?_)
  exact (gives_functionBody h).bind fun value proper =>
    gives_pure ⟨⟨⟨isName, areNames, isMethod⟩, proper⟩, rfl⟩

theorem gives_enclosedBlock (h : GivesForms dialect below) :
    Gives dialect (enclosedBlock below) (Statement.IsProperAll dialect) :=
  (gives_expect _).bind fun _ _ => h.block.bind fun _ all =>
    (gives_expect _).bind fun _ _ => gives_pure all

theorem gives_whileLoop (h : GivesForms dialect below) :
    Gives dialect (whileLoop below) (Continued dialect) := by
  refine leaves_production (gives_advance.bind fun _ _ => (gives_expression h).bind fun _ proper => ?_)
  exact (gives_enclosedBlock h).bind fun _ all => gives_pure ⟨⟨proper, all⟩, rfl⟩

theorem gives_forLoop (h : GivesForms dialect below) :
    Gives dialect (forLoop below) (Continued dialect) := by
  refine leaves_production (gives_advance.bind fun _ _ => gives_identifier.bind fun counter isName =>
    (gives_takes _).bind fun _ _ => leaves_ite (fun _ => ?_) fun _ => ?_)
  · refine (gives_expression h).bind fun first ofFirst => (gives_expect _).bind fun _ _ =>
      (gives_expression h).bind fun last ofLast =>
        (gives_behind (gives_expression h)).bind fun step ofStep =>
          (gives_enclosedBlock h).bind fun block all => ?_
    refine gives_pure ⟨⟨isName, ofFirst, ofLast, ?_, all⟩, rfl⟩
    cases step with
    | none => trivial
    | some step => exact ofStep step rfl
  · refine (gives_afterCommas gives_identifier).bind fun others areNames =>
      (gives_expect _).bind fun _ _ => (gives_expressionList h).bind fun iterators proper =>
        (gives_enclosedBlock h).bind fun block all => gives_pure ⟨⟨?_, proper.1, ?_, ?_⟩, rfl⟩
    · exact List.cons_ne_nil _ _
    · exact List.forall_mem_cons.mpr ⟨isName, areNames⟩
    · exact ⟨proper.2, all⟩

theorem gives_repeatLoop (h : GivesForms dialect below) :
    Gives dialect (repeatLoop below) (Continued dialect) := by
  refine leaves_production (gives_advance.bind fun _ _ => h.block.bind fun _ all => ?_)
  exact (gives_expect _).bind fun _ _ => (gives_expression h).bind fun _ proper =>
    gives_pure ⟨⟨all, proper⟩, rfl⟩

theorem gives_doBlock (h : GivesForms dialect below) :
    Gives dialect (doBlock below) (Continued dialect) :=
  leaves_production ((gives_enclosedBlock h).bind fun _ all => gives_pure ⟨all, rfl⟩)

theorem gives_goto (labels : dialect.contextualGoto → dialect.labels) :
    Gives dialect goto (Continued dialect) :=
  leaves_production (gives_advance.bind fun _ _ => gives_identifier.bind fun _ isName =>
    gives_pure ⟨⟨labels, isName⟩, rfl⟩)

theorem gives_label (labels : dialect.labels) : Gives dialect label (Continued dialect) :=
  leaves_production (gives_advance.bind fun _ _ => gives_identifier.bind fun _ isName =>
    (gives_expect _).bind fun _ _ => gives_pure ⟨⟨labels, isName⟩, rfl⟩)

theorem gives_target (h : GivesForms dialect below) :
    Gives dialect (target below) (·.IsProper dialect) := by
  refine h.suffixed.bind fun result all => ?_
  cases result with
  | none => exact leaves_unexpected
  | some target => exact gives_pure (all target rfl).1

theorem gives_assignmentOrCall (h : GivesForms dialect below) :
    Gives dialect (assignmentOrCall below) (Continued dialect) := by
  refine leaves_production ((gives_target h).bind fun first ofFirst => leaves_get_bind fun _ _ _ =>
    leaves_ite (fun _ => ?_) fun _ => leaves_ite (fun isCall => ?_) fun _ => leaves_unexpected)
  · refine (gives_afterCommas (gives_target h)).bind fun others ofOthers =>
      leaves_ite (fun assignable => ?_) fun _ => leaves_unexpected
    refine (gives_expect _).bind fun _ _ => (gives_expressionList h).bind fun values proper => ?_
    refine gives_pure ⟨⟨List.cons_ne_nil _ _, proper.1, List.all_eq_true.mp assignable, ?_,
      proper.2⟩, rfl⟩
    exact ⟨ofFirst, Expression.isProperAll_iff.mpr ofOthers⟩
  · exact gives_pure ⟨⟨isCall, ofFirst⟩, rfl⟩

theorem gives_isJump : Gives dialect isJump fun jump => jump → dialect.labels := by
  refine leaves_get_bind fun c same _ => leaves_ite (fun labels => ?_) fun _ =>
    gives_pure fun jump => Bool.noConfusion jump
  exact (gives_nextMatchesAny _).anywhere.mono fun _ _ _ _ => same ▸ labels

theorem gives_statement (h : GivesForms dialect below) :
    Gives dialect (statement below) (Continued dialect) := by
  refine leaves_production (leaves_current_bind fun t _ whole => ?_)
  rcases heading_cases t with heading | ⟨member, keyword⟩ | ⟨heading, symbol, text⟩ |
    ⟨heading, -, -⟩
  · rw [heading]
    exact (gives_assignmentOrCall h).anywhere
  · have more : t.isEnd = false := by simp [Token.isEnd, keyword]
    cases heading : Heading.ofToken t with
    | localDeclaration => exact (gives_localDeclaration h).anywhere
    | conditional => exact (gives_conditional h).anywhere
    | function => exact (gives_functionStatement h).anywhere
    | whileLoop => exact (gives_whileLoop h).anywhere
    | forLoop => exact (gives_forLoop h).anywhere
    | repeatLoop => exact (gives_repeatLoop h).anywhere
    | doBlock => exact (gives_doBlock h).anywhere
    | goto =>
      have text : t.text = "goto" := by simpa [headings, heading] using member
      have strict := (whole more).contextualGoto_of_keyword keyword text
      exact (gives_goto fun contextual => by simp [strict] at contextual).anywhere
    | breakLoop => exact gives_advance.bind fun _ _ => gives_pure ⟨trivial, rfl⟩
    | label => simp [headings, heading] at member
    | gotoName => simp [headings, heading] at member
    | assignmentOrCall => simp [headings, heading] at member
  · rw [heading]
    have more : t.isEnd = false := by simp [Token.isEnd, symbol]
    have sign : t.text.toList ∈ Lexeme.symbols dialect := (whole more).mem_symbols symbol
    rw [text] at sign
    exact (gives_label (labels_of_mem_symbols sign)).anywhere
  · rw [heading]
    exact gives_isJump.bind fun jump labels => leaves_ite
      (fun isJump => (gives_goto fun _ => labels isJump).anywhere)
      fun _ => (gives_assignmentOrCall h).anywhere

theorem gives_returning (h : GivesForms dialect below) :
    Gives dialect (returning below) (·.IsProper dialect) := by
  have values : Gives dialect (returnedValues below) (Expression.IsProperAll dialect) :=
    leaves_current_bind fun _ _ _ => leaves_get_bind fun _ _ _ =>
      leaves_ite (fun _ => ((gives_expressionList h).mono fun _ _ all => all.2).anywhere) fun _ =>
        gives_pure trivial
  exact leaves_production (gives_advance.bind fun _ _ => values.bind fun _ proper =>
    (gives_discard (gives_takes _)).bind fun _ _ => gives_pure proper)

theorem gives_statement? (h : GivesForms dialect below) :
    Gives dialect (statement? below) fun result => ∀ s ∈ result, Continued dialect s := by
  have nothing : Gives dialect (pure ()) fun _ => True := gives_pure trivial
  have semicolons : Gives dialect (many (behind ";" (pure ()))) fun _ => True :=
    (gives_many (gives_behind nothing)).mono fun _ _ _ => trivial
  refine (gives_discard semicolons).bind fun _ _ => leaves_current_bind fun _ _ _ =>
    leaves_ite (fun _ => ?_) fun _ => gives_none
  exact (gives_statement h).bind fun _ proper => gives_some proper

/-- Statements that may be followed are proper in front of a proper block. -/
theorem isProperAll_append {statements last : List Statement}
    (h : ∀ s ∈ statements, Continued dialect s) (ofLast : Statement.IsProperAll dialect last) :
    Statement.IsProperAll dialect (statements ++ last) := by
  induction statements with
  | nil => exact ofLast
  | cons s others ih =>
    obtain ⟨proper, continued⟩ := h s List.mem_cons_self
    refine ⟨proper, fun returns => ?_, ih fun t member => h t (List.mem_cons_of_mem _ member)⟩
    rw [continued] at returns
    cases returns

theorem gives_block (h : GivesForms dialect below) :
    Gives dialect (block below) (Statement.IsProperAll dialect) := by
  refine leaves_production ((gives_many (gives_statement? h)).bind fun statements all =>
    leaves_current_bind fun _ _ _ => leaves_ite (fun _ => ?_) fun _ => ?_)
  · exact (gives_returning h).bind fun last proper =>
      gives_pure (isProperAll_append all ⟨proper, fun _ => rfl, trivial⟩)
  · have none : Statement.IsProperAll dialect [] := trivial
    refine gives_pure ?_
    simpa using isProperAll_append all none

theorem GivesForms.rule (h : GivesForms dialect below) : GivesForms dialect (rule below) where
  reads := reads_rule h.reads
  gives
    | .block => gives_block h
    | .operand limit => leaves_operand h limit
    | .suffixed => gives_suffixed h
    | .table => gives_table h
    | .arguments => gives_arguments h

/-- At every level, a form gives only what is proper. -/
theorem givesForms_levels (depth : Nat) : GivesForms dialect (levels depth) := by
  induction depth with
  | zero => exact ⟨reads_levels 0, fun _ => leaves_failHere⟩
  | succ depth ih => exact ih.rule

theorem gives_chunk (depth : Nat) :
    Gives dialect (chunk depth) fun chunk => Statement.IsProperAll dialect chunk.block := by
  have taken : Gives dialect (liftM Cursor.takeComments : Parser (List Token)) fun _ => True := by
    intro c comments d legible _ run
    cases liftM_ok.mp run
    exact ⟨⟨legible.input, legible.dialect_eq, legible.whole⟩, trivial⟩
  refine leaves_production ((givesForms_levels depth).block.bind fun block all =>
    leaves_current_bind fun _ _ _ => leaves_ite (fun _ => ?_) fun _ => leaves_unexpected)
  exact taken.bind fun _ _ => gives_pure all

end LuaFrontend.Grammar
