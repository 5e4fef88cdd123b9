import LuaFrontend.Proofs.NestingExpressions
import LuaFrontend.Proofs.StatementReading

set_option autoImplicit false

namespace LuaFrontend.Grammar

open LuaFrontend.Parser

variable {dialect : Dialect} {depth : Nat} {s : Spot}

/-- The token is taken without counting for anything. -/
structure IsSilent (t : Token) : Prop where
  plain : t.closesTable = false
  more : t.isEnd = false

theorem isSilent_of_isWord {t : Token} {text : String} (h : t.isWord text) : IsSilent t := by
  simp only [Token.isWord, Token.isKeyword, Bool.and_eq_true, beq_iff_eq] at h
  exact ⟨Token.closesTable_of_kind (by simp [h.1]), by simp [Token.isEnd, h.1]⟩

theorem isSilent_of_heading {t : Token} (h : Heading.ofToken t ≠ .assignmentOrCall) :
    IsSilent t := by
  rcases heading_cases t with other | ⟨-, keyword⟩ | ⟨-, symbol, text⟩ | ⟨-, name, -⟩
  · exact absurd other h
  · exact ⟨Token.closesTable_of_kind (by simp [keyword]), by simp [Token.isEnd, keyword]⟩
  · exact ⟨by simp [Token.closesTable, text], by simp [Token.isEnd, symbol]⟩
  · exact ⟨Token.closesTable_of_kind (by simp [name]), by simp [Token.isEnd, name]⟩

variable {α : Type} {good : α → Spot → Prop} {p : Below → Parser α}

theorem counts_heading (h : IsSilent s.now)
    (next : ∀ now, Counts dialect depth (s.move now) p good) :
    Counts dialect depth s
      (fun below => (liftM Cursor.advance : Parser Unit) >>= fun _ => p below) good :=
  counts_advance_bind h.plain h.more next

theorem counts_name (s : Spot) :
    Counts dialect depth s (fun _ => identifier) fun _ t => s.Adds .zero t :=
  counts_identifier.mono fun _ _ named => named.1

/-- A name behind a sign, if the sign is there. -/
theorem counts_nameBehind {text : String} (other : text ≠ "\x7d") (s : Spot) :
    Counts dialect depth s (fun _ => behind text identifier) fun _ t => s.Adds .zero t :=
  counts_takes_ite other (fun _ _ => (counts_name _).bind fun _ _ adds => counts_pure adds)
    (counts_pure (.refl s))

theorem counts_moreNames (s : Spot) :
    Counts dialect depth s (fun _ => afterCommas identifier) fun _ t => s.Adds .zero t :=
  counts_many_silent (counts_nameBehind (by decide)) s

theorem counts_names (s : Spot) :
    Counts dialect depth s (fun _ => commaSeparated identifier) fun _ t => s.Adds .zero t :=
  (counts_name s).bind fun _ _ first => (counts_moreNames _).bind fun _ _ others =>
    counts_pure (first.zero_trans others)

theorem counts_localDeclaration (h : CountsForms dialect depth) (begins : IsSilent s.now) :
    Counts dialect depth s localDeclaration fun statement t => s.Adds statement.nesting t := by
  refine counts_production (counts_heading begins fun now => counts_takes_ite (by decide)
    (fun _ _ => ?_) ?_)
  · exact (counts_name _).bind fun name t named => (counts_functionBody h t).bind
      fun value u post => counts_pure (named.zero_trans post.1)
  · refine (counts_names _).bind fun names t named =>
      (counts_behind (by decide) fun _ => counts_expressionList h _).bind fun values u adds => ?_
    cases values <;> exact counts_pure (named.zero_trans adds)

theorem counts_clause (h : CountsForms dialect depth) (begins : IsSilent s.now) :
    Counts dialect depth s clause fun clause t => s.Adds clause.nesting t := by
  refine counts_heading begins fun now => ?_
  exact (counts_expression h _).bind fun condition t ofCondition =>
    counts_expect_bind (by decide) fun _ _ => (h.block _).bind fun block u ofBlock =>
      counts_pure (ofCondition.1.trans ofBlock)

theorem counts_elseClause? (h : CountsForms dialect depth) (s : Spot) :
    Counts dialect depth s elseClause? fun result t =>
      s.Adds (result.elim .zero Clause.nesting) t := by
  refine counts_current_bind fun _ => counts_ite (fun word => ?_) fun _ => counts_pure (.refl s)
  exact (counts_clause h (isSilent_of_isWord word)).bind fun clause t adds => counts_pure adds

theorem counts_conditional (h : CountsForms dialect depth) (begins : IsSilent s.now) :
    Counts dialect depth s conditional fun statement t => s.Adds statement.nesting t := by
  refine counts_production ((counts_clause h begins).bind fun first t ofFirst => ?_)
  refine (counts_many (counts_elseClause? h)).bind fun others u ofOthers => ?_
  refine (counts_behind (by decide) fun now => h.block (u.move now)).bind
    fun otherwise v ofElse => counts_expect_bind (by decide) fun _ _ => counts_pure ?_
  rw [Statement.nesting, Clause.nestingEach, Clause.nestingEach_eq]
  cases otherwise <;> exact (ofFirst.trans ofOthers).trans ofElse

theorem counts_functionStatement (h : CountsForms dialect depth) (begins : IsSilent s.now) :
    Counts dialect depth s functionStatement fun statement t => s.Adds statement.nesting t := by
  refine counts_production (counts_heading begins fun now => ?_)
  refine (counts_name _).bind fun root t ofRoot =>
    (counts_many_silent (counts_nameBehind (by decide)) t).bind fun fields u ofFields => ?_
  refine (counts_nameBehind (by decide) u).bind fun method v ofMethod =>
    (counts_functionBody h v).bind fun value w ofValue => counts_pure ?_
  exact ofRoot.zero_trans (ofFields.zero_trans (ofMethod.zero_trans ofValue.1))

theorem counts_enclosedBlock (h : CountsForms dialect depth) (s : Spot) :
    Counts dialect depth s enclosedBlock fun block t =>
      s.Adds (Statement.nestingEach block).nested t :=
  counts_expect_bind (by decide) fun _ _ => (h.block _).bind fun _ _ adds =>
    counts_expect_bind (by decide) fun _ _ => counts_pure adds

theorem counts_whileLoop (h : CountsForms dialect depth) (begins : IsSilent s.now) :
    Counts dialect depth s whileLoop fun statement t => s.Adds statement.nesting t := by
  refine counts_production (counts_heading begins fun now => ?_)
  exact (counts_expression h _).bind fun condition t ofCondition =>
    (counts_enclosedBlock h t).bind fun block u ofBlock =>
      counts_pure (ofCondition.1.trans ofBlock)

theorem counts_forLoop (h : CountsForms dialect depth) (begins : IsSilent s.now) :
    Counts dialect depth s forLoop fun statement t => s.Adds statement.nesting t := by
  refine counts_production (counts_heading begins fun now => (counts_name _).bind
    fun counter t ofCounter => counts_takes_ite (by decide) (fun _ _ => ?_) ?_)
  · refine (counts_expression h _).bind fun first u ofFirst => counts_expect_bind (by decide)
      fun _ _ => (counts_expression h _).bind fun last v ofLast => ?_
    have step (now : Token) : Counts dialect depth (v.move now) expression fun e w =>
        (v.move now).Adds e.nesting.nested w :=
      (counts_expression h _).mono fun _ _ => And.left
    refine (counts_behind (by decide) step).bind fun step w ofStep =>
      (counts_enclosedBlock h w).bind fun block x ofBlock => counts_pure ?_
    have all := ofCounter.zero_trans (ofFirst.1.trans (ofLast.1.trans (ofStep.trans ofBlock)))
    cases step <;> exact all
  · refine (counts_moreNames t).bind fun others u names => counts_expect_bind (by decide)
      fun _ _ => (counts_expressionList h _).bind fun iterators v ofValues => ?_
    refine (counts_enclosedBlock h v).bind fun block w ofBlock => counts_pure ?_
    exact ofCounter.zero_trans (names.zero_trans (ofValues.trans ofBlock))

theorem counts_repeatLoop (h : CountsForms dialect depth) (begins : IsSilent s.now) :
    Counts dialect depth s repeatLoop fun statement t => s.Adds statement.nesting t := by
  refine counts_production (counts_heading begins fun now => ?_)
  exact (h.block _).bind fun block t ofBlock => counts_expect_bind (by decide) fun _ _ =>
    (counts_expression h _).bind fun condition u ofCondition =>
      counts_pure (ofBlock.trans ofCondition.1)

theorem counts_doBlock (h : CountsForms dialect depth) (s : Spot) :
    Counts dialect depth s doBlock fun statement t => s.Adds statement.nesting t :=
  counts_production ((counts_enclosedBlock h s).bind fun _ _ adds => counts_pure adds)

theorem counts_goto (begins : IsSilent s.now) :
    Counts dialect depth s (fun _ => goto) fun statement t => s.Adds statement.nesting t :=
  counts_production (counts_heading begins fun _ => (counts_name _).bind fun _ _ adds =>
    counts_pure adds)

theorem counts_label (begins : IsSilent s.now) :
    Counts dialect depth s (fun _ => label) fun statement t => s.Adds statement.nesting t :=
  counts_production (counts_heading begins fun _ => (counts_name _).bind fun _ _ adds =>
    counts_expect_bind (by decide) fun _ _ => counts_pure adds)

theorem counts_target (h : CountsForms dialect depth) (s : Spot) :
    Counts dialect depth s target fun e t => s.Adds e.nestingChain.nested t := by
  refine (h .suffixed s).bind fun result t post => ?_
  cases result with
  | none => exact counts_unexpected
  | some e => exact counts_pure post.1

theorem counts_assignmentOrCall (h : CountsForms dialect depth) (s : Spot) :
    Counts dialect depth s assignmentOrCall fun statement t => s.Adds statement.nesting t := by
  refine counts_production ((counts_target h s).bind fun first t ofFirst =>
    counts_get_bind fun _ _ _ => counts_ite (fun _ => ?_) fun _ =>
      counts_ite (fun _ => counts_pure ofFirst) fun _ => counts_unexpected)
  refine (counts_afterCommas (counts_target h) t).bind fun others u ofOthers =>
    counts_ite (fun _ => ?_) fun _ => counts_unexpected
  refine counts_expect_bind (by decide) fun _ _ =>
    (counts_expressionList h _).bind fun values v ofValues => counts_pure ?_
  rw [Statement.nesting, Expression.nestingTargets, Expression.nestingTargets_eq]
  exact (ofFirst.trans ofOthers).trans ofValues

theorem counts_isJump (s : Spot) : Counts dialect depth s (fun _ => isJump) fun _ t => t = s := by
  refine counts_of_run fun c jump e _ here run => ?_
  have passes := isJump_ok run
  refine ⟨[], passes, ?_⟩
  rw [passes.current_eq, here, Spot.pass_nil]

theorem counts_statement (h : CountsForms dialect depth) (s : Spot) :
    Counts dialect depth s statement fun statement t => s.Adds statement.nesting t := by
  refine counts_production (counts_current_bind fun _ => ?_)
  have silent (other : Heading.ofToken s.now ≠ .assignmentOrCall) := isSilent_of_heading other
  cases heading : Heading.ofToken s.now with
  | localDeclaration => exact counts_localDeclaration h (silent (by simp [heading]))
  | conditional => exact counts_conditional h (silent (by simp [heading]))
  | function => exact counts_functionStatement h (silent (by simp [heading]))
  | whileLoop => exact counts_whileLoop h (silent (by simp [heading]))
  | forLoop => exact counts_forLoop h (silent (by simp [heading]))
  | repeatLoop => exact counts_repeatLoop h (silent (by simp [heading]))
  | doBlock => exact counts_doBlock h s
  | goto => exact counts_goto (silent (by simp [heading]))
  | breakLoop =>
    exact counts_heading (silent (by simp [heading])) fun now => counts_pure (.refl s)
  | label => exact counts_label (silent (by simp [heading]))
  | gotoName =>
    refine (counts_isJump s).bind fun jump t same => ?_
    subst same
    exact counts_ite (fun _ => counts_goto (silent (by simp [heading])))
      fun _ => counts_assignmentOrCall h t
  | assignmentOrCall => exact counts_assignmentOrCall h s

theorem counts_returnedValues (h : CountsForms dialect depth) (s : Spot) :
    Counts dialect depth s returnedValues fun values t =>
      s.Adds (Expression.nestingEach values) t :=
  counts_current_bind fun _ => counts_get_bind fun _ _ _ =>
    counts_ite (fun _ => counts_expressionList h s) fun _ => counts_pure (.refl s)

theorem counts_returning (h : CountsForms dialect depth) (begins : IsSilent s.now) :
    Counts dialect depth s returning fun statement t => s.Adds statement.nesting t := by
  refine counts_production (counts_heading begins fun now => ?_)
  refine (counts_returnedValues h _).bind fun values t adds => ?_
  have semicolon : Counts dialect depth t (fun _ => takes ";") fun _ u =>
      s.Adds (Expression.nestingEach values) u :=
    counts_takes (by decide) (fun _ _ => adds) adds
  exact (counts_discard semicolon).bind fun _ u adds => counts_pure adds

theorem counts_statement? (h : CountsForms dialect depth) (s : Spot) :
    Counts dialect depth s statement? fun result t =>
      s.Adds (result.elim .zero Statement.nesting) t := by
  have semicolon (s : Spot) : Counts dialect depth s (fun _ => behind ";" (pure ()))
      fun _ t => s.Adds .zero t :=
    counts_takes_ite (by decide) (fun _ _ => counts_pure (.refl s)) (counts_pure (.refl s))
  refine (counts_discard (counts_many_silent semicolon s)).bind fun _ t skipped =>
    counts_current_bind fun _ => counts_ite (fun _ => ?_) fun _ => counts_pure skipped
  exact (counts_statement h t).bind fun statement u adds => counts_pure (skipped.zero_trans adds)

theorem counts_block (h : CountsForms dialect depth) (s : Spot) :
    Counts dialect depth s block fun block t => s.Adds (Statement.nestingEach block) t := by
  simp only [Statement.nestingEach_eq]
  refine counts_production ((counts_many (counts_statement? h)).bind fun statements t adds =>
    counts_current_bind fun _ => counts_ite (fun word => ?_) fun _ => counts_pure adds)
  refine (counts_returning h (isSilent_of_isWord word)).bind fun last u more => counts_pure ?_
  rw [Count.each_append, Count.each, Count.each, Count.beside_zero]
  exact adds.trans more

theorem counts_rule (h : CountsForms dialect depth) (form : Form) (s : Spot) :
    Counts dialect depth s (fun below => rule below form) fun a t =>
      s.Adds (form.nesting a) t ∧ form.ends a s t := by
  cases form with
  | block => exact (counts_block h s).mono fun _ _ adds => ⟨adds, trivial⟩
  | operand limit =>
    refine (counts_operand h limit s).mono fun result t found => ?_
    cases result <;> exact found
  | suffixed =>
    refine (counts_suffixed h s).mono fun result t found => ?_
    cases result with
    | none =>
      obtain rfl : t = s := found
      exact ⟨.refl t, rfl⟩
    | some e => exact ⟨found.2.1, found.1, found.2.2⟩
  | table => exact counts_table h s
  | arguments => exact (counts_arguments h s).mono fun _ _ adds => ⟨adds, trivial⟩

/-- A form needs one level more than its rule, and at the last level it is not read any more. -/
theorem countsForms_levels (dialect : Dialect) (depth : Nat) : CountsForms dialect depth := by
  induction depth with
  | zero => exact fun form s c a e _ _ run => (not_failHere_ok run).elim
  | succ depth ih =>
    intro form s c a e legible here run
    obtain ⟨tokens, n, passes, few, needs, adds, ends⟩ :=
      counts_rule ih form ⟨0, [], s.last, s.now⟩ legible here run
    refine ⟨tokens, n + 1, passes, Nat.succ_le_succ few, fun d => ?_, ?_, ?_⟩
    · cases d with
      | zero =>
        exact ⟨fun enough => absurd enough (Nat.not_succ_le_zero n), fun _ => ⟨_, _, rfl, rfl⟩⟩
      | succ d =>
        exact ⟨fun enough => (needs d).1 (Nat.le_of_succ_le_succ enough),
          fun less => (needs d).2 (Nat.lt_of_succ_lt_succ less)⟩
    · obtain ⟨marks, m, takes, levels, same⟩ := adds
      obtain rfl : n = m := by simpa [Spot.pass] using levels
      refine ⟨marks, n + 1, takes.nested, rfl, ?_⟩
      exact congrArg (s.marks ++ ·) same
    · cases form with
      | operand limit => cases a <;> exact ends
      | suffixed => cases a <;> exact ends
      | _ => exact ends

end LuaFrontend.Grammar
