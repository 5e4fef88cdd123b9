import LuaFrontend.Proofs.ExpressionLikeness
import LuaFrontend.Proofs.StatementLoop

set_option autoImplicit false

namespace LuaFrontend.Likeness

open LuaFrontend.Grammar
open LuaFrontend.Parser (shrinks_behind KeepsEnd FailsAtEnd failsAtEnd_expect_bind keepsEnd_of_reads
  keepsEnd_pure bind_eq_of_ok)

variable {L : Likeness} {below other : Below}

theorem heading_eq {t u : Token} (h : L.token t u) : Heading.ofToken u = Heading.ofToken t := by
  simp only [Heading.ofToken, L.kind h, L.text h]

theorem isInBlock_eq {t u : Token} (h : L.token t u) : isInBlock u = isInBlock t := by
  simp only [isInBlock, isEnd_eq h, Token.endsBlock, Token.isKeyword, L.kind h, L.text h]

theorem token_of_isWord {t u : Token} (h : L.Sees t u) {text : String} (word : t.isWord text) :
    L.token t u := by
  simp only [Token.isWord, Token.isKeyword, Bool.and_eq_true, beq_iff_eq] at word
  exact h.token_of_kind word.1 (by decide)

theorem runs_localDeclaration (h : L.RunsForms below other) :
    L.RunsFrom L.token (localDeclaration below) (localDeclaration other)
      (L.Same Statement.mapSpans) := by
  refine runs_production _ (runs_advance.bind fun _ _ _ => ?_)
  refine (runs_takes "function" (.other rfl)).bind fun taken _ same => ?_
  subst same
  refine runs_ite ?_ ?_
  · exact runs_identifier.bind fun _ _ name => (runs_functionBody h).bind fun _ _ value =>
      runs_pure (congrArg₂ Statement.localFunction name value)
  · refine (runs_commaSeparated runs_identifier (shrinks_behind "," Parser.reads_identifier)
      (shrinks_behind "," Parser.reads_identifier)).bind fun _ _ names => ?_
    refine (runs_behind "=" (runs_expressionList h) (.other rfl)).bind fun _ _ values =>
      runs_pure ?_
    refine congrArg₂ Statement.localVariables (same_list names) ?_
    cases values with
    | none => rfl
    | some values => exact values

theorem partly_clause (h : L.RunsForms below other) :
    L.PartlyFrom L.token (clause below) (clause other) (L.Same Clause.mapSpans) :=
  runs_advance.bind_partly fun _ _ _ => (runs_expression h).bind_partly fun _ _ condition =>
    (runs_expect "then" (.other rfl)).bind_partly fun _ _ _ => h.block.bind
      (fun _ _ block => RunsFrom.partly (runs_pure (congrArg₂ Clause.mk condition block)))
      fun _ => keepsEnd_pure _

theorem partly_elseClause? (h : L.RunsForms below other) :
    L.Partly (elseClause? below) (elseClause? other) (Option.Rel (L.Same Clause.mapSpans)) := by
  refine partly_current_bind fun t u sees _ => ?_
  rw [isWord_eq sees]
  split
  · next word =>
    exact ((partly_clause h).at (token_of_isWord sees word)).bind
      (fun _ _ value => RunsFrom.partly (runs_pure (.some value))) fun _ => keepsEnd_pure _
  · exact RunsFrom.partly (runs_pure .none)

theorem runs_conditional (h : L.RunsForms below other) :
    L.RunsFrom L.token (conditional below) (conditional other) (L.Same Statement.mapSpans) := by
  have elseClauses := partly_many (partly_elseClause? h)
    (keepsEnd_of_reads (reads_elseClause? h.reads)) (shrinks_elseClause? h.reads)
    (shrinks_elseClause? h.otherReads)
  refine runs_production _ ((partly_clause h).bind_failing (fun _ _ first => ?_) fun _ => ?_)
  · refine elseClauses.bind_failing (fun _ _ others => ?_) fun _ => ?_
    · refine (partly_behind "else" h.block (.other rfl)).bind_failing (fun _ _ otherwise => ?_)
        fun _ => failsAtEnd_expect_bind _ _
      refine (runs_expect "end" (.other rfl)).bind fun _ _ _ => runs_pure ?_
      simp only [Same, Statement.mapSpans, Clause.mapSpansAll_eq, Statement.mapSpansElse_eq]
      exact congrArg₂ Statement.conditional (same_list (.cons first others))
        (same_option otherwise)
    · exact .of_bind (keepsEnd_of_reads (Parser.reads_behind (h.reads .block)))
        fun _ => failsAtEnd_expect_bind _ _
  · exact .of_bind (keepsEnd_of_reads (Parser.reads_many (reads_elseClause? h.reads))) fun _ =>
      .of_bind (keepsEnd_of_reads (Parser.reads_behind (h.reads .block))) fun _ =>
        failsAtEnd_expect_bind _ _

theorem runs_functionStatement (h : L.RunsForms below other) :
    L.RunsFrom L.token (functionStatement below) (functionStatement other)
      (L.Same Statement.mapSpans) := by
  refine runs_production _ (runs_advance.bind fun _ _ _ => runs_identifier.bind fun _ _ root => ?_)
  refine (runs_many (runs_behind "." runs_identifier (.other rfl))
    (shrinks_behind "." Parser.reads_identifier)
    (shrinks_behind "." Parser.reads_identifier)).bind fun _ _ fields => ?_
  refine (runs_behind ":" runs_identifier (.other rfl)).bind fun _ _ method =>
    (runs_functionBody h).bind fun _ _ value => runs_pure ?_
  simp only [Same, Statement.mapSpans, FunctionName.mapSpans]
  rw [same_list fields, same_option method, root, value]

theorem runs_enclosedBlock (h : L.RunsForms below other) :
    L.Runs (enclosedBlock below) (enclosedBlock other) (L.Same Statement.mapSpansAll) :=
  (runs_expect "do" (.other rfl)).bind fun _ _ _ => h.block.bind_failing
    (fun _ _ block => (runs_expect "end" (.other rfl)).bind fun _ _ _ => runs_pure block)
    fun _ => failsAtEnd_expect_bind _ _

theorem runs_whileLoop (h : L.RunsForms below other) :
    L.RunsFrom L.token (whileLoop below) (whileLoop other) (L.Same Statement.mapSpans) :=
  runs_production _ (runs_advance.bind fun _ _ _ => (runs_expression h).bind fun _ _ condition =>
    (runs_enclosedBlock h).bind fun _ _ block =>
      runs_pure (congrArg₂ Statement.whileLoop condition block))

theorem runs_forLoop (h : L.RunsForms below other) :
    L.RunsFrom L.token (forLoop below) (forLoop other) (L.Same Statement.mapSpans) := by
  refine runs_production _ (runs_advance.bind fun _ _ _ => runs_identifier.bind
    fun _ _ counter => (runs_takes "=" (.other rfl)).bind fun taken _ same => ?_)
  subst same
  refine runs_ite ?_ ?_
  · refine (runs_expression h).bind fun _ _ first =>
      (runs_expect "," (.other rfl)).bind fun _ _ _ => (runs_expression h).bind fun _ _ last => ?_
    refine (runs_behind "," (runs_expression h) (.other rfl)).bind fun _ _ step =>
      (runs_enclosedBlock h).bind fun _ _ block => runs_pure ?_
    simp only [Same, Statement.mapSpans, Expression.mapSpansStep_eq]
    rw [counter, first, last, same_option step, block]
  · refine (runs_many (runs_behind "," runs_identifier (.other rfl))
      (shrinks_behind "," Parser.reads_identifier)
      (shrinks_behind "," Parser.reads_identifier)).bind fun _ _ others => ?_
    refine (runs_expect "in" (.other rfl)).bind fun _ _ _ => (runs_expressionList h).bind
      fun _ _ iterators => (runs_enclosedBlock h).bind fun _ _ block => runs_pure ?_
    simp only [Same, Statement.mapSpans]
    rw [same_list (.cons counter others), iterators, block]

theorem runs_repeatLoop (h : L.RunsForms below other) :
    L.RunsFrom L.token (repeatLoop below) (repeatLoop other) (L.Same Statement.mapSpans) :=
  runs_production _ (runs_advance.bind fun _ _ _ => h.block.bind_failing
    (fun _ _ block => (runs_expect "until" (.other rfl)).bind fun _ _ _ => (runs_expression h).bind
      fun _ _ condition => runs_pure (congrArg₂ Statement.repeatLoop block condition))
    fun _ => failsAtEnd_expect_bind _ _)

theorem runs_doBlock (h : L.RunsForms below other) :
    L.Runs (doBlock below) (doBlock other) (L.Same Statement.mapSpans) :=
  runs_production _ ((runs_enclosedBlock h).bind fun _ _ block =>
    runs_pure (congrArg Statement.doBlock block))

theorem runs_goto : L.RunsFrom L.token goto goto (L.Same Statement.mapSpans) :=
  runs_production _ (runs_advance.bind fun _ _ _ => runs_identifier.bind fun _ _ label =>
    runs_pure (congrArg Statement.goto label))

theorem runs_label : L.RunsFrom L.token label label (L.Same Statement.mapSpans) :=
  runs_production _ (runs_advance.bind fun _ _ _ => runs_identifier.bind fun _ _ name =>
    (runs_expect "::" (.other rfl)).bind fun _ _ _ => runs_pure (congrArg Statement.label name))

theorem runs_target (h : L.RunsForms below other) :
    L.Runs (target below) (target other) (L.Same Expression.mapSpans) := by
  refine (h.runs .suffixed nofun).bind fun _ _ value => ?_
  cases value with
  | none => exact runs_unexpected
  | some value => exact runs_pure value

theorem isCall_eq {e k : Expression} (h : L.Same Expression.mapSpans e k) :
    k.isCall = e.isCall := by
  rw [← Expression.isCall_mapSpans L.left e, ← Expression.isCall_mapSpans L.right k, h]

theorem all_isAssignable_eq {first second : List Expression}
    (h : List.Forall₂ (L.Same Expression.mapSpans) first second) :
    second.all (·.isAssignable) = first.all (·.isAssignable) := by
  induction h with
  | nil => rfl
  | @cons e k _ _ same _ ih =>
    rw [List.all_cons, List.all_cons, ih, ← Expression.isAssignable_mapSpans L.left e,
      ← Expression.isAssignable_mapSpans L.right k, same]

theorem runs_assignmentOrCall (h : L.RunsForms below other) :
    L.Runs (assignmentOrCall below) (assignmentOrCall other) (L.Same Statement.mapSpans) := by
  refine runs_production _ ((runs_target h).bind fun _ _ first =>
    runs_get_bind fun c d both sees => ?_)
  rw [Cursor.matchesAny, Cursor.matchesAny, any_accepts_eq sees (by decide), isCall_eq first]
  refine RunsFrom.at ?_ sees
  refine runs_ite ?_ (runs_ite ?_ runs_unexpected)
  · refine (runs_many (runs_behind "," (runs_target h) (.other rfl))
      (shrinks_behind "," (reads_target h.reads))
      (shrinks_behind "," (reads_target h.otherReads))).bind fun _ _ others => ?_
    have targets := List.Forall₂.cons first others
    simp only [all_isAssignable_eq targets]
    refine runs_ite ?_ runs_unexpected
    refine (runs_expect "=" (.other rfl)).bind fun _ _ _ =>
      (runs_expressionList h).bind fun _ _ values => ?_
    exact runs_pure (congrArg₂ Statement.assignment (same_expressions targets) values)
  · exact runs_pure (congrArg Statement.call first)

/-- A name before another name is neither a call nor the target of an assignment. -/
theorem not_assignmentOrCall_ok (names : ReadsNames below) {c d : Cursor} {t : Token}
    {rest : List Outcome} (view : c.upcoming = .ok c.current :: .ok t :: rest)
    (first : c.current.kind = .identifier) (second : t.kind = .identifier) (s : Statement) :
    assignmentOrCall below c ≠ .ok s d := by
  intro run
  obtain ⟨e, body, rfl⟩ := Parser.production_ok.mp run
  obtain ⟨target, f, ofTarget, run₁⟩ := Parser.bind_ok.mp body
  obtain ⟨result, g, ofSuffixed, run₂⟩ := Parser.bind_ok.mp ofTarget
  obtain ⟨rfl, here⟩ := names (c := c.record _) view first second ofSuffixed
  obtain ⟨rfl, rfl⟩ := Parser.pure_ok.mp run₂
  rw [Parser.get_bind] at run₁
  have other : f.matchesAny [.text ",", .text "="] = false := by
    simp [Cursor.matchesAny, Pattern.accepts, here, second, Pattern.isFreelySpelled]
  simp only [other, Expression.isCall, Bool.false_eq_true, ↓reduceIte] at run₁
  exact Parser.not_unexpected_ok run₁

theorem runs_gotoName (h : L.RunsForms below other) :
    L.RunsFrom (fun t u => L.token t u ∧ t.kind = .identifier)
      (do if ← isJump then goto else assignmentOrCall below)
      (do if ← isJump then goto else assignmentOrCall other) (L.Same Statement.mapSpans) := by
  have jumps : L.RunsFrom L.token
      (liftM (Cursor.nextMatchesAny [.kind .identifier]) >>= fun jump =>
        if jump then goto else assignmentOrCall below)
      (liftM (Cursor.nextMatchesAny [.kind .identifier]) >>= fun jump =>
        if jump then goto else assignmentOrCall other) (L.Same Statement.mapSpans) := by
    refine runs_nextMatchesAny_bind (fun jump => ?_) rfl
    cases jump with
    | true => exact runs_goto
    | false => exact fun c d both _ => runs_assignmentOrCall h both both.sees
  rintro c d both ⟨inside, name⟩
  simp only [isJump, bind_assoc, Parser.get_bind]
  rcases both.dialect with same | ⟨off, pardoned, noFault⟩
  · rw [same]
    split
    · exact jumps both inside
    · simp only [pure_bind]
      exact runs_assignmentOrCall h both both.sees
  · simp only [off, Bool.false_eq_true, ↓reduceIte, pure_bind]
    split
    · -- Only the second dialect asks for a name behind the word; the first one has no use for it.
      rcases both.behind inside with ⟨view, -⟩ | ⟨t, u, rest, more, view, seen, sees⟩ |
        ⟨e, f, -, -, -, -, fault⟩
      · have input := both.input
        rw [view] at input
        exact absurd rfl (input.tail_ne_nil (by simp [Token.isEnd, name]))
      · obtain ⟨k, looked, passes⟩ := Cursor.next_of_token seen
        have following : (liftM (Cursor.nextMatchesAny [.kind .identifier]) : Parser Bool) d =
            .ok (u.kind == .identifier) k := by
          rw [Parser.liftM_nextMatchesAny, bind_eq_of_ok (Parser.liftM_ok.mpr looked)]
          simp [Pattern.accepts]
          rfl
        rw [bind_eq_of_ok following]
        by_cases another : t.kind = .identifier
        · exact results_of_pardoned pardoned
            (fun s _ => not_assignmentOrCall_ok h.names view name another s) _
        · rw [← kind_eq_iff sees .identifier (by decide)] at another
          simp only [another, beq_iff_eq, ↓reduceIte]
          have further := both.of_passes (.refl c) passes
          exact runs_assignmentOrCall h further further.sees
      · exact absurd fault (noFault e f)
    · exact runs_assignmentOrCall h both both.sees

theorem runs_statement (h : L.RunsForms below other) :
    L.RunsFrom L.token (statement below) (statement other) (L.Same Statement.mapSpans) := by
  refine runs_production _ (runs_current_bind fun t u _ same => ?_)
  rw [heading_eq same]
  cases heading : Heading.ofToken t with
  | localDeclaration => exact (runs_localDeclaration h).at same
  | conditional => exact (runs_conditional h).at same
  | function => exact (runs_functionStatement h).at same
  | whileLoop => exact (runs_whileLoop h).at same
  | forLoop => exact (runs_forLoop h).at same
  | repeatLoop => exact (runs_repeatLoop h).at same
  | doBlock => exact (runs_doBlock h).at (.inl same)
  | goto => exact runs_goto.at same
  | breakLoop =>
    have broken : L.Same Statement.mapSpans .breakLoop .breakLoop := rfl
    exact (runs_advance.bind fun _ _ _ => runs_pure broken).at same
  | label => exact runs_label.at same
  | gotoName => exact (runs_gotoName h).at ⟨same, (text_of_gotoName heading).2⟩
  | assignmentOrCall => exact (runs_assignmentOrCall h).at (.inl same)

theorem runs_returnedValues (h : L.RunsForms below other) :
    L.Runs (returnedValues below) (returnedValues other) (L.Same Expression.mapSpansAll) := by
  refine runs_current_bind fun t u sees _ => runs_get_bind fun c d both is => ?_
  obtain ⟨rfl, rfl⟩ := is
  rcases sees with same | stop
  · simp only [isInBlock_eq same, Cursor.hasText, accepts_eq_of_token same]
    exact runs_ite ((runs_expressionList h).at (.inl same)) (runs_pure rfl)
  · have first : isInBlock c.current = false := by simp [isInBlock, L.isEnd_of_stop stop]
    have second : d.hasText ";" = true := by
      simp [Cursor.hasText, Pattern.accepts, L.kind_of_stop stop, L.text_of_stop stop,
        Pattern.isFreelySpelled]
    simp only [first, second, Bool.false_and, Bool.not_true, Bool.and_false, Bool.false_eq_true,
      ↓reduceIte]
    exact runs_pure rfl

theorem partly_semicolon : L.Partly (Parser.takes ";") (Parser.takes ";") Eq :=
  PartlyFrom.of_token (RunsFrom.partly (runs_takes ";" (.token _)))
    (Parser.keepsEnd_takes ";")

theorem partly_returning (h : L.RunsForms below other) :
    L.PartlyFrom L.token (returning below) (returning other) (L.Same Statement.mapSpans) :=
  partly_production _ (runs_advance.bind_partly fun _ _ _ => (runs_returnedValues h).bind_partly
    fun _ _ values => (partly_discard partly_semicolon).bind
      (fun _ _ _ => RunsFrom.partly (runs_pure (congrArg Statement.returning values)))
      fun _ => keepsEnd_pure _)

theorem partly_semicolons : L.Partly (discard (Parser.many (Parser.behind ";" (pure ()))))
    (discard (Parser.many (Parser.behind ";" (pure ())))) fun _ _ => True := by
  have nothing : L.Runs (pure ()) (pure ()) fun _ _ : Unit => True := runs_pure trivial
  have keeps : KeepsEnd (Parser.behind ";" (pure ())) :=
    keepsEnd_of_reads (Parser.reads_behind reads_nothing)
  have shrinks := shrinks_behind ";" reads_nothing
  have step : L.Partly (Parser.behind ";" (pure ())) (Parser.behind ";" (pure ())) _ :=
    PartlyFrom.of_token (RunsFrom.partly (runs_behind ";" nothing (.token _))) keeps
  exact partly_discard (partly_many step keeps shrinks shrinks)

theorem runs_statementHere? (h : L.RunsForms below other) :
    L.RunsFrom L.token (statementHere? below) (statementHere? other)
      (Option.Rel (L.Same Statement.mapSpans)) := by
  refine runs_current_bind fun t u sees same => ?_
  rw [isInBlock_eq same, isWord_eq sees]
  refine runs_ite ?_ (runs_pure .none)
  exact ((runs_statement h).at same).bind fun _ _ s => runs_pure (.some s)

theorem partly_statement? (h : L.RunsForms below other) :
    L.Partly (statement? below) (statement? other) (Option.Rel (L.Same Statement.mapSpans)) := by
  have keeps : KeepsEnd (statementHere? below) :=
    Parser.keepsEnd_current_bind fun t last => ⟨none, by simp [isInBlock, last]⟩
  exact partly_semicolons.bind
    (fun _ _ _ => PartlyFrom.of_token (RunsFrom.partly (runs_statementHere? h)) keeps)
    fun _ => keeps

theorem partly_withReturn (h : L.RunsForms below other) {first second : List Statement}
    (same : List.Forall₂ (L.Same Statement.mapSpans) first second) :
    L.Partly (withReturn below first) (withReturn other second)
      (L.SameForm .block) := by
  refine partly_current_bind fun t u sees _ => ?_
  rw [isWord_eq sees]
  split
  · next word =>
    refine ((partly_returning h).at (token_of_isWord sees word)).bind (fun _ _ last => ?_)
      fun _ => keepsEnd_pure _
    refine RunsFrom.partly (runs_pure ?_)
    simp only [SameForm, Same, Statement.mapSpansAll_eq]
    exact same_list (List.rel_append same (.cons last .nil))
  · refine RunsFrom.partly (runs_pure ?_)
    simp only [SameForm, Same, Statement.mapSpansAll_eq]
    exact same_list same

theorem keepsEnd_withReturn (statements : List Statement) :
    KeepsEnd (withReturn below statements) := by
  refine Parser.keepsEnd_current_bind fun t last => ⟨statements, ?_⟩
  simp only [Token.isEnd, beq_iff_eq] at last
  simp [Token.isWord, Token.isKeyword, last]

theorem partly_upToEnd (h : L.RunsForms below other) :
    L.Partly (upToEnd below) (upToEnd other) (L.SameForm .block) :=
  (partly_many (partly_statement? h) (keepsEnd_of_reads (reads_statement? h.reads))
    (shrinks_statement? h.reads) (shrinks_statement? h.otherReads)).bind
      (fun _ _ same => partly_withReturn h same) keepsEnd_withReturn

theorem partly_block (h : L.RunsForms below other) :
    L.Partly (block below) (block other) (L.SameForm .block) := by
  rw [block_eq, block_eq]
  exact partly_production _ (partly_upToEnd h)

theorem runs_rule (h : L.RunsForms below other) (form : Form) (inner : form ≠ .block) :
    L.Runs (rule below form) (rule other form) (L.SameForm form) := by
  cases form with
  | block => exact absurd rfl inner
  | operand limit => exact runs_operand h limit
  | suffixed => exact runs_suffixed h
  | table => exact runs_table h
  | arguments => exact runs_arguments h

/-- The two runs may open as many levels, or the first one fewer if it is pardoned for stopping at
its limit. -/
def SameDepths (L : Likeness) (first second : Nat) : Prop :=
  first = second ∨
    first ≤ second ∧ ∀ position near, L.pardoned (.grammatical ⟨.nestingTooDeep, position, near⟩)

theorem runs_levels {depth depth' : Nat} (h : L.SameDepths depth depth') :
    L.RunsForms (levels depth) (levels depth') := by
  induction depth generalizing depth' with
  | zero =>
    have fails (form : Form) : L.Runs (levels 0 form) (levels depth' form) (L.SameForm form) := by
      rcases h with rfl | ⟨-, pardoned⟩
      · exact runs_failHere _
      · exact fun c d _ _ => results_of_error (pardoned _ _) _
    refine ⟨fun form _ => fails form, (fails .block).partly, reads_levels 0, reads_levels depth',
      readsNames_levels 0⟩
  | succ depth ih =>
    obtain ⟨depth', rfl⟩ : ∃ less, depth' = less + 1 := by
      refine ⟨depth' - 1, ?_⟩
      rcases h with rfl | ⟨le, -⟩ <;> omega
    have inner : L.SameDepths depth depth' := by
      rcases h with same | ⟨le, pardoned⟩
      · exact .inl (by omega)
      · exact .inr ⟨by omega, pardoned⟩
    exact ⟨runs_rule (ih inner), partly_block (ih inner), reads_levels (depth + 1),
      reads_levels (depth' + 1), readsNames_levels (depth + 1)⟩

theorem runs_takeComments :
    L.Runs (liftM Cursor.takeComments) (liftM Cursor.takeComments) fun _ _ => True :=
  fun _ _ both _ => ⟨trivial, both.upcoming, both.dialect, both.input, both.other⟩

/-- Whole programs, where the second text does not go on behind the first one. -/
theorem runs_chunk {depth depth' : Nat} (h : L.SameDepths depth depth')
    (together : ∀ t u, ¬ L.stop t u) :
    L.Runs (chunk depth) (chunk depth')
      fun a b => L.Same Statement.mapSpansAll a.block b.block := by
  have ofBlock := (runs_levels h).block.runs together
  refine runs_production _ (ofBlock.bind fun _ _ block => runs_current_bind fun t u sees _ => ?_)
  have same := sees.resolve_right (together t u)
  rw [isEnd_eq same]
  refine RunsFrom.at ?_ sees
  exact runs_ite (runs_takeComments.bind fun _ _ _ => runs_pure block) runs_unexpected

end LuaFrontend.Likeness
