import LuaFrontend.Proofs.GotoAgreement

set_option autoImplicit false

namespace LuaFrontend

/-- A form that may be absent is missing. -/
def Form.IsMissing : (form : Form) → form.Tree → Prop
  | .operand _ => (· = none)
  | .suffixed => (· = none)
  | .block | .table | .arguments => fun _ => False

namespace Grammar

open LuaFrontend.Parser

/-- The forms one level down agree, and those that may be absent are missing at the keyword. -/
structure AgreesForms (below : Below) : Prop where
  reads : ReadsForms below
  agrees : ∀ form, AgreesOr form.IsMissing (below form)
  operand : ∀ limit, StopsAtGoto (· = none) (below (.operand limit))
  suffixed : StopsAtGoto (· = none) (below .suffixed)

variable {below : Below}

theorem AgreesForms.block (h : AgreesForms below) : Agrees (below .block) := h.agrees .block

theorem AgreesForms.table (h : AgreesForms below) : Agrees (below .table) := h.agrees .table

theorem AgreesForms.arguments (h : AgreesForms below) : Agrees (below .arguments) :=
  h.agrees .arguments

section Expressions

theorem agreesOr_expression? (h : AgreesForms below) :
    AgreesOr (· = none) (expression? below) :=
  agreesOr_production _ (h.agrees (.operand 0))

theorem stops_expression? (h : AgreesForms below) : StopsAtGoto (· = none) (expression? below) :=
  stops_production _ (h.operand 0)

theorem agrees_expression (h : AgreesForms below) : Agrees (expression below) :=
  agrees_required _ (agreesOr_expression? h)

theorem agrees_expressionList (h : AgreesForms below) : Agrees (expressionList below) :=
  agrees_commaSeparated (reads_expression h.reads) (agrees_expression h)

theorem ignoresGoto_vararg : (Pattern.kind .vararg).IgnoresGoto := fun _ => ⟨rfl, rfl⟩

theorem agrees_parameter (list : Parameters) : Agrees (parameter list) := by
  refine agreesOr_ite (agreesOr_pure none) (agreesOr_ifName (fun _ => ?_) ?_ ?_)
  · exact agrees_identifier.bind fun _ => (agrees_takes (by decide)).bind fun _ =>
      agreesOr_pure _
  · exact (Agrees.consume ignoresGoto_vararg).bind fun _ =>
      agreesOr_ite (agreesOr_pure _) (agreesOr_failHere _)
  · refine stops_ifName ((stops_consume ignoresGoto_vararg).bind fun taken no => ?_)
    rw [no]
    exact stops_failHere _

theorem agrees_parameters : Agrees parameters := by
  refine (agrees_expect (by decide)).bind fun _ => (agrees_takes (by decide)).bind fun _ =>
    agreesOr_ite (agreesOr_pure _) ?_
  refine (agrees_grow shrinks_parameter agrees_parameter _).bind fun _ => ?_
  exact (agrees_expect (by decide)).bind fun _ => agreesOr_pure _

theorem agrees_functionBody (h : AgreesForms below) : Agrees (functionBody below) := by
  refine agreesOr_production _ (agrees_parameters.bind fun _ => h.block.bind fun _ => ?_)
  exact (agrees_expect (by decide)).bind fun _ => agreesOr_pure _

/-- The keyword is no key. -/
theorem agreesOr_isKey : AgreesOr (· = false) isKey :=
  agreesOr_ifName (fun _ => (agrees_nextMatchesAny (by decide)).or) (agreesOr_pure false)
    (stops_ifName (stops_pure rfl))

/-- Where the keyword stands no field begins, even if it is a key as a name. -/
theorem agreesOr_field? (h : AgreesForms below) : AgreesOr (· = none) (field? below) := by
  refine (agrees_takes (by decide)).bind fun _ => agreesOr_ite ?_ (agreesOr_isKey.bind
    (fun _ => agreesOr_ite ?_ ?_) fun key no => ?_)
  · refine (agrees_expression h).bind fun _ => (agrees_expect (by decide)).bind fun _ => ?_
    refine (agrees_expect (by decide)).bind fun _ => (agrees_expression h).bind fun _ => ?_
    exact agreesOr_pure _
  · refine agreesOr_current_bind (fun _ => rfl) fun _ => ?_
    refine (agrees_discard (agrees_consumeNext (by decide))).bind fun _ => ?_
    exact (agrees_expression h).bind fun _ => agreesOr_pure _
  · refine (agreesOr_expression? h).bind (fun _ => agreesOr_pure _) fun value missing => ?_
    rw [missing]
    exact stops_pure rfl
  · rw [no, if_neg Bool.false_ne_true]
    refine (stops_expression? h).bind fun value missing => ?_
    rw [missing]
    exact stops_pure rfl

theorem agrees_separator : Agrees separator :=
  agreesOr_matchesAny (by decide) (by decide)
    (agrees_advance.bind fun _ => agreesOr_pure true) (agreesOr_pure false)

theorem agreesOr_nextField (h : AgreesForms below) :
    AgreesOr (· = none)
      (do if ← separator then field? below else return none : Parser (Option TableField)) :=
  agrees_separator.bind fun _ => agreesOr_ite (agreesOr_field? h) (agreesOr_pure none)

/-- The fields may end too early, at the keyword. -/
theorem agreesOr_fields (h : AgreesForms below) : AgreesOr (fun _ => True) (fields below) := by
  refine (agreesOr_field? h).bind (fun first => ?_) fun first missing => ?_
  · cases first with
    | none => exact agreesOr_pure []
    | some first =>
      have shrinks := Likeness.shrinks_nextField h.reads
      have others := agreesOr_many shrinks (agreesOr_nextField h) fun _ => Option.some_ne_none _
      exact others.bind (fun _ => agreesOr_pure _) fun _ _ => stops_pure trivial
  · rw [missing]
    exact stops_pure trivial

/-- A table has to be closed, so its fields did not end at the keyword. -/
theorem agrees_table (h : AgreesForms below) : Agrees (table below) := by
  refine agreesOr_production _ ((agrees_expect (by decide)).bind fun _ =>
    (agreesOr_fields h).bind (fun _ => ?_) fun _ _ => stops_expect_bind (by decide) _)
  exact (agrees_expect (by decide)).bind fun _ => agreesOr_pure _

theorem agrees_arguments (h : AgreesForms below) : Agrees (arguments below) :=
  agreesOr_hasText (by decide) (agreesOr_pure []) (agrees_expressionList h)

theorem agrees_callArguments? (h : AgreesForms below) : Agrees (callArguments? below) := by
  refine agreesOr_current_bind (fun _ => rfl) fun _ => (agrees_takes (by decide)).bind fun _ =>
    agreesOr_ite ?_ (agreesOr_hasText (by decide) ?_ (agreesOr_ite ?_ (agreesOr_pure none)))
  · exact h.arguments.bind fun _ => (agrees_expect (by decide)).bind fun _ => agreesOr_pure _
  · exact h.table.bind fun _ => agreesOr_pure _
  · exact agrees_advance.bind fun _ => agreesOr_pure _

theorem stops_base? (below : Below) : StopsAtGoto (· = none) (base? below) := by
  refine stops_ifName ((stops_takes (by decide)).bind fun taken no => ?_)
  rw [no, if_neg Bool.false_ne_true]
  exact stops_pure rfl

theorem agreesOr_base? (h : AgreesForms below) : AgreesOr (· = none) (base? below) := by
  refine agreesOr_ifName (fun _ => agrees_identifier.bind fun _ => agreesOr_pure _) ?_
    (stops_base? below)
  refine (agrees_takes (by decide)).bind fun _ => agreesOr_ite ?_ (agreesOr_pure none)
  exact (agrees_expression h).bind fun _ => (agrees_expect (by decide)).bind fun _ =>
    agreesOr_pure _

theorem agrees_suffix? (h : AgreesForms below) (base : Expression) :
    Agrees (suffix? below base) := by
  refine (agrees_takes (by decide)).bind fun _ => agreesOr_ite ?_
    ((agrees_takes (by decide)).bind fun _ => agreesOr_ite ?_
      ((agrees_takes (by decide)).bind fun _ => agreesOr_ite ?_ ?_))
  · refine (agrees_expression h).bind fun _ => ?_
    exact (agrees_expect (by decide)).bind fun _ => agreesOr_pure _
  · exact agrees_identifier.bind fun _ => agreesOr_pure _
  · refine agrees_identifier.bind fun _ => ?_
    exact (agrees_required _ (agrees_callArguments? h).or).bind fun _ => agreesOr_pure _
  · exact (agrees_callArguments? h).bind fun _ => agreesOr_pure _

theorem agreesOr_suffixed (h : AgreesForms below) : AgreesOr (· = none) (suffixed below) := by
  refine agreesOr_production _ ((agreesOr_base? h).bind (fun base => ?_) fun base missing => ?_)
  · cases base with
    | none => exact agreesOr_pure none
    | some base =>
      have shrinks := shrinks_of_extends (extends_suffix? h.reads)
      exact (agrees_grow shrinks (agrees_suffix? h) base).bind fun _ => agreesOr_pure _
  · rw [missing]
    exact stops_pure rfl

theorem stops_suffixed (below : Below) : StopsAtGoto (· = none) (suffixed below) := by
  refine stops_production _ ((stops_base? below).bind fun base missing => ?_)
  rw [missing]
  exact stops_pure rfl

theorem agreesOr_primary? (h : AgreesForms below) : AgreesOr (· = none) (primary? below) := by
  refine agreesOr_production _ (agreesOr_current_bind (fun _ => rfl) fun t => ?_)
  cases Literal.ofToken? t with
  | some value => exact agrees_advance.bind fun _ => agreesOr_pure _
  | none =>
    refine (agrees_takes (by decide)).bind fun _ => agreesOr_ite ?_
      (agreesOr_hasText (by decide) ?_ (h.agrees .suffixed))
    · exact (agrees_functionBody h).bind fun _ => agreesOr_pure _
    · exact h.table.bind fun _ => agreesOr_pure _

theorem stops_primary? (h : AgreesForms below) : StopsAtGoto (· = none) (primary? below) := by
  refine stops_production _ (stops_current_bind fun start => ?_)
  have noFunction : StopsAtGoto (· = false) (takes "function") := stops_takes (by decide)
  refine noFunction.bind fun taken no => ?_
  rw [no, if_neg Bool.false_ne_true]
  exact stops_hasText (by decide) h.suffixed

theorem agreesOr_prefixed? (h : AgreesForms below) :
    AgreesOr (· = none) (prefixed? below) := by
  refine agreesOr_current_bind (fun _ => rfl) fun t => ?_
  cases unaryOperator? t with
  | none => exact agreesOr_primary? h
  | some operator =>
    refine agrees_advance.bind fun _ => ?_
    exact (agrees_required _ (h.agrees (.operand _))).bind fun _ => agreesOr_pure _

theorem stops_prefixed? (h : AgreesForms below) : StopsAtGoto (· = none) (prefixed? below) :=
  stops_current_bind fun _ => stops_primary? h

theorem agrees_joined? (h : AgreesForms below) (limit : Nat) (left : Expression) :
    Agrees (joined? below limit left) := by
  refine agreesOr_current_bind (fun _ => rfl) fun t => ?_
  cases binaryOperator? t with
  | none => exact agreesOr_pure none
  | some operator =>
    refine agreesOr_ite (agreesOr_pure none) (agrees_advance.bind fun _ => ?_)
    exact (agrees_required _ (h.agrees (.operand _))).bind fun _ => agreesOr_pure _

theorem agreesOr_operand (h : AgreesForms below) (limit : Nat) :
    AgreesOr (· = none) (operand below limit) := by
  refine (agreesOr_prefixed? h).bind (fun left => ?_) fun left missing => ?_
  · cases left with
    | none => exact agreesOr_pure none
    | some left =>
      have shrinks := shrinks_of_extends (extends_joined? h.reads limit)
      exact (agrees_grow shrinks (agrees_joined? h limit) left).bind fun _ => agreesOr_pure _
  · rw [missing]
    exact stops_pure rfl

theorem stops_operand (h : AgreesForms below) (limit : Nat) :
    StopsAtGoto (· = none) (operand below limit) := by
  refine (stops_prefixed? h).bind fun left missing => ?_
  rw [missing]
  exact stops_pure rfl

end Expressions

section Statements

theorem agrees_localDeclaration (h : AgreesForms below) : Agrees (localDeclaration below) := by
  refine agreesOr_production _ (agrees_advance.bind fun _ => (agrees_takes (by decide)).bind
    fun _ => agreesOr_ite ?_ ?_)
  · exact agrees_identifier.bind fun _ => (agrees_functionBody h).bind fun _ => agreesOr_pure _
  · refine (agrees_commaSeparated reads_identifier agrees_identifier).bind fun _ => ?_
    refine (agrees_behind (by decide) (agrees_expressionList h)).bind fun _ => ?_
    exact agreesOr_pure _

theorem agrees_clause (h : AgreesForms below) : Agrees (clause below) := by
  refine agrees_advance.bind fun _ => (agrees_expression h).bind fun _ => ?_
  exact (agrees_expect (by decide)).bind fun _ => h.block.bind fun _ => agreesOr_pure _

theorem agrees_elseClause? (h : AgreesForms below) : Agrees (elseClause? below) :=
  agreesOr_current_bind (fun _ => rfl) fun _ =>
    agreesOr_ite ((agrees_clause h).bind fun _ => agreesOr_pure _) (agreesOr_pure none)

theorem agrees_conditional (h : AgreesForms below) : Agrees (conditional below) := by
  refine agreesOr_production _ ((agrees_clause h).bind fun _ => ?_)
  refine (agrees_many (shrinks_elseClause? h.reads) (agrees_elseClause? h)).bind fun _ => ?_
  refine (agrees_behind (by decide) h.block).bind fun _ => ?_
  exact (agrees_expect (by decide)).bind fun _ => agreesOr_pure _

theorem agrees_functionStatement (h : AgreesForms below) : Agrees (functionStatement below) := by
  refine agreesOr_production _ (agrees_advance.bind fun _ => agrees_identifier.bind fun _ => ?_)
  have fields := agrees_many (shrinks_behind "." reads_identifier)
    (agrees_behind (by decide) agrees_identifier)
  refine fields.bind fun _ => (agrees_behind (by decide) agrees_identifier).bind fun _ => ?_
  exact (agrees_functionBody h).bind fun _ => agreesOr_pure _

theorem agrees_enclosedBlock (h : AgreesForms below) : Agrees (enclosedBlock below) :=
  (agrees_expect (by decide)).bind fun _ => h.block.bind fun _ =>
    (agrees_expect (by decide)).bind fun _ => agreesOr_pure _

theorem agrees_whileLoop (h : AgreesForms below) : Agrees (whileLoop below) := by
  refine agreesOr_production _ (agrees_advance.bind fun _ => (agrees_expression h).bind fun _ => ?_)
  exact (agrees_enclosedBlock h).bind fun _ => agreesOr_pure _

theorem agrees_forLoop (h : AgreesForms below) : Agrees (forLoop below) := by
  refine agreesOr_production _ (agrees_advance.bind fun _ => agrees_identifier.bind fun _ =>
    (agrees_takes (by decide)).bind fun _ => agreesOr_ite ?_ ?_)
  · refine (agrees_expression h).bind fun _ => (agrees_expect (by decide)).bind fun _ => ?_
    refine (agrees_expression h).bind fun _ => ?_
    refine (agrees_behind (by decide) (agrees_expression h)).bind fun _ => ?_
    exact (agrees_enclosedBlock h).bind fun _ => agreesOr_pure _
  · refine (agrees_afterCommas reads_identifier agrees_identifier).bind fun _ => ?_
    refine (agrees_expect (by decide)).bind fun _ => (agrees_expressionList h).bind fun _ => ?_
    exact (agrees_enclosedBlock h).bind fun _ => agreesOr_pure _

theorem agrees_repeatLoop (h : AgreesForms below) : Agrees (repeatLoop below) := by
  refine agreesOr_production _ (agrees_advance.bind fun _ => h.block.bind fun _ => ?_)
  refine (agrees_expect (by decide)).bind fun _ => ?_
  exact (agrees_expression h).bind fun _ => agreesOr_pure _

theorem agrees_doBlock (h : AgreesForms below) : Agrees (doBlock below) :=
  agreesOr_production _ ((agrees_enclosedBlock h).bind fun _ => agreesOr_pure _)

theorem agrees_goto : Agrees goto :=
  agreesOr_production _ (agrees_advance.bind fun _ => agrees_identifier.bind fun _ =>
    agreesOr_pure _)

theorem agrees_label : Agrees label :=
  agreesOr_production _ (agrees_advance.bind fun _ => agrees_identifier.bind fun _ =>
    (agrees_expect (by decide)).bind fun _ => agreesOr_pure _)

/-- No target begins with the keyword, so none is missing there. -/
theorem agrees_target (h : AgreesForms below) : Agrees (target below) := by
  refine AgreesOr.bind (h.agrees .suffixed) (fun value => ?_) fun value missing => ?_
  · cases value with
    | some value => exact agreesOr_pure value
    | none => exact agreesOr_unexpected
  · rw [missing]
    exact stops_unexpected

theorem agrees_assignmentOrCall (h : AgreesForms below) : Agrees (assignmentOrCall below) := by
  refine agreesOr_production _ ((agrees_target h).bind fun first => ?_)
  refine agreesOr_matchesAny (by decide) (by decide) ?_
    (agreesOr_ite (agreesOr_pure _) agreesOr_unexpected)
  refine (agrees_afterCommas (reads_target h.reads) (agrees_target h)).bind fun _ =>
    agreesOr_ite ?_ agreesOr_unexpected
  refine (agrees_expect (by decide)).bind fun _ => ?_
  exact (agrees_expressionList h).bind fun _ => agreesOr_pure _

section Jumps

variable {c d e : Cursor}

/-- A jump needs a name behind the keyword. -/
theorem name_of_goto {s : Statement} (stopped : c.AtGoto) (run : goto c = .ok s e) :
    ∃ t rest, c.upcoming = .ok c.current :: .ok t :: rest ∧ t.kind = .identifier := by
  obtain ⟨k, body, -⟩ := production_ok.mp run
  obtain ⟨_, f, moved, body⟩ := bind_ok.mp body
  obtain ⟨name, g, named, -⟩ := bind_ok.mp body
  have kind : f.current.kind = .identifier := by
    rw [identifier, current_bind] at named
    split at named
    · next ok => exact ok
    · exact (not_expected_ok named).elim
  rcases Cursor.advance_cases (c.record (.enter .goto)) with ⟨i, same, passes, -⟩ |
    ⟨t, rest, i, same, passes, view⟩ | ⟨x, rest, i, same, -⟩
  · -- The end token is never left, and it is no keyword followed by a name.
    rw [liftM_ok.mp moved] at same
    cases same
    have stays : f.current = c.current := passes.current_eq
    rw [stays, Token.kind_of_isWord stopped] at kind
    cases kind
  · rw [liftM_ok.mp moved] at same
    cases same
    have behind := passes.upcoming
    rw [view, Cursor.upcoming] at behind
    obtain rfl : t = f.current := Except.ok.inj (List.cons.inj (List.cons.inj behind).2).1
    exact ⟨f.current, rest, view, kind⟩
  · rw [liftM_ok.mp moved] at same
    cases same

/-- Before a name, the name `goto` is a jump. -/
theorem isJump_of_name {t : Token} {rest : List Outcome} (labels : c.dialect.labels)
    (view : c.upcoming = .ok c.current :: .ok t :: rest) (name : t.kind = .identifier) :
    ∃ d, isJump c = .ok true d ∧ c.Passes [] d := by
  obtain ⟨d, following, passes⟩ := Cursor.next_of_token view
  refine ⟨d, ?_, passes⟩
  rw [isJump, get_bind, if_pos labels, liftM_nextMatchesAny, bind_eq_of_ok (liftM_ok.mpr following)]
  simp only [List.any_cons, Pattern.accepts, name, beq_self_eq_true, Bool.true_or]
  rfl

end Jumps

/-- The keyword stands before a name, and there the name `goto` is a jump too. Any other token heads
the same statement in both runs. -/
theorem agrees_statement (h : AgreesForms below) : Agrees (statement below) := by
  refine agreesOr_production _ fun c d s e frees run => ?_
  rw [current_bind] at run ⊢
  cases word : c.current.isWord "goto" with
  | true =>
    have reserved : Heading.ofToken c.current = .goto := by
      rw [Token.eq_of_isWord word]
      rfl
    have free : Heading.ofToken d.current = .gotoName := by
      rw [frees.current, Token.freed_of_goto word, Token.eq_of_isWord word]
      rfl
    rw [reserved] at run
    obtain ⟨t, rest, view, name⟩ := name_of_goto word run
    have otherView := frees.upcoming_token view
    rw [Token.freed_of_kind (by simp [name])] at otherView
    -- Looking for the name reads ahead in the second run only, which changes nothing before it.
    obtain ⟨k, jump, passes⟩ := isJump_of_name frees.labels otherView name
    have still : c.Frees k := frees.passes (.refl c) passes
    simp only [free]
    rw [bind_eq_of_ok jump]
    exact agrees_goto still run
  | false =>
    rw [frees.current, Token.freed_of_other word]
    generalize given : Heading.ofToken c.current = heading at run ⊢
    cases heading with
    | localDeclaration => exact agrees_localDeclaration h frees run
    | conditional => exact agrees_conditional h frees run
    | function => exact agrees_functionStatement h frees run
    | whileLoop => exact agrees_whileLoop h frees run
    | forLoop => exact agrees_forLoop h frees run
    | repeatLoop => exact agrees_repeatLoop h frees run
    | doBlock => exact agrees_doBlock h frees run
    | goto => exact agrees_goto frees run
    | breakLoop =>
      have leaves : Agrees (liftM Cursor.advance >>= fun _ => pure Statement.breakLoop) :=
        agrees_advance.bind fun _ => agreesOr_pure _
      exact leaves frees run
    | label => exact agrees_label frees run
    | gotoName =>
      obtain ⟨text, name⟩ := text_of_gotoName given
      exact absurd text (frees.isStrict name)
    | assignmentOrCall => exact agrees_assignmentOrCall h frees run

theorem agrees_returning (h : AgreesForms below) : Agrees (returning below) := by
  have values : Agrees (returnedValues below) := by
    refine agreesOr_current_bind (fun _ => rfl) fun t => ?_
    refine agreesOr_get_bind (fun c d frees => ?_) fun _ =>
      agreesOr_ite (agrees_expressionList h) (agreesOr_pure [])
    have same : d.hasText ";" = c.hasText ";" :=
      accepts_current (Pattern.ignoresGoto_text (by decide)) frees
    rw [same]
  refine agreesOr_production _ (agrees_advance.bind fun _ => values.bind fun _ => ?_)
  exact (agrees_discard (agrees_takes (by decide))).bind fun _ => agreesOr_pure _

theorem agrees_statement? (h : AgreesForms below) : Agrees (statement? below) := by
  have semicolons := agrees_many shrinks_semicolon
    (agrees_behind (by decide) (agreesOr_pure ()))
  refine (agrees_discard semicolons).bind fun _ => agreesOr_current_bind (fun _ => rfl) fun _ => ?_
  exact agreesOr_ite ((agrees_statement h).bind fun _ => agreesOr_pure _) (agreesOr_pure none)

theorem agrees_block (h : AgreesForms below) : Agrees (block below) := by
  have statements := agrees_many (shrinks_statement? h.reads) (agrees_statement? h)
  refine agreesOr_production _ (statements.bind fun _ => ?_)
  refine agreesOr_current_bind (fun _ => rfl) fun _ => ?_
  exact agreesOr_ite ((agrees_returning h).bind fun _ => agreesOr_pure _) (agreesOr_pure _)

end Statements

theorem AgreesForms.rule (h : AgreesForms below) : AgreesForms (rule below) where
  reads := reads_rule h.reads
  agrees
    | .block => agrees_block h
    | .operand limit => agreesOr_operand h limit
    | .suffixed => agreesOr_suffixed h
    | .table => agrees_table h
    | .arguments => agrees_arguments h
  operand := stops_operand h
  suffixed := stops_suffixed below

/-- At every level, each form agrees. -/
theorem agreesForms_levels (depth : Nat) : AgreesForms (levels depth) := by
  induction depth with
  | zero =>
    exact ⟨reads_levels 0, fun _ => agreesOr_failHere _, fun _ => stops_failHere _,
      stops_failHere _⟩
  | succ depth ih => exact ih.rule

/-- A program has the same statements. Its comments are a matter of the text alone. -/
theorem chunk_frees {depth : Nat} {c d e : Cursor} {chunk : Chunk} (frees : c.Frees d)
    (run : Grammar.chunk depth c = .ok chunk e) :
    ∃ comments f, Grammar.chunk depth d = .ok ⟨chunk.block, comments⟩ f := by
  obtain ⟨k, body, -⟩ := production_ok.mp run
  obtain ⟨block, g, first, body⟩ := bind_ok.mp body
  obtain ⟨i, again, further⟩ := ((agreesForms_levels depth).block (frees.record _ (.enter .chunk))
    first).resolve_right fun ⟨no, _⟩ => no
  rw [current_bind] at body
  split at body
  · next last =>
    obtain ⟨comments, j, -, result⟩ := bind_ok.mp body
    obtain ⟨rfl, -⟩ := pure_ok.mp result
    have alsoLast : i.current.isEnd := by
      rw [further.current, Token.isEnd_freed]
      exact last
    refine ⟨i.comments.map .ofToken, _, production_ok.mpr ⟨{ i with aside := [] }, ?_, rfl⟩⟩
    rw [bind_eq_of_ok again, current_bind, if_pos alsoLast]
    rfl
  · exact (not_unexpected_ok body).elim

end Grammar

/-- With labels, contextual `goto` is a conservative extension: what is a program where `goto` is
reserved is the same program, places and comments included, where it is a name unless a name
follows. -/
theorem parse_with_contextual_goto {options : Options} {source : String} {chunk : Chunk}
    (labels : options.labels) (reserved : options.contextualGoto = false)
    (h : parse options source = .ok chunk) :
    parse { options with contextualGoto := true } source = .ok chunk := by
  obtain ⟨c, e, opened, run⟩ := parse_ok.mp h
  obtain ⟨d, alsoOpened, frees, remarks⟩ := Cursor.ofSource_frees reserved labels opened
  obtain ⟨comments, f, again⟩ := Grammar.chunk_frees frees run
  obtain ⟨-, -, -, -, closed⟩ := ofSource_view opened
  obtain ⟨-, -, -, input, alsoClosed⟩ := ofSource_view alsoOpened
  obtain ⟨-, -, -, -, -, first⟩ := Grammar.chunk_ok frees.input closed run
  obtain ⟨-, -, -, -, -, second⟩ := Grammar.chunk_ok input alsoClosed again
  have same : (⟨chunk.block, comments⟩ : Chunk) = chunk := by
    obtain ⟨block, others⟩ := chunk
    simp only at first second
    rw [first, second, remarks]
  exact parse_ok.mpr ⟨d, f, alsoOpened, same ▸ again⟩

/-- A jump back to a label, by what is a keyword first and then a name. -/
theorem parse_jump_with_contextual_goto :
    parse { Options.forParser with contextualGoto := true } "::a::goto a" =
      .ok ⟨[.label ⟨"a", ⟨2, 3⟩⟩, .goto ⟨"a", ⟨10, 11⟩⟩], []⟩ := by
  have strict : parse .forParser "::a::goto a" =
      .ok ⟨[.label ⟨"a", ⟨2, 3⟩⟩, .goto ⟨"a", ⟨10, 11⟩⟩], []⟩ := rfl
  exact parse_with_contextual_goto rfl rfl strict

end LuaFrontend
