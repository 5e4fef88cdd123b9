import LuaFrontend.Grammar.Chunk
import LuaFrontend.Proofs.EarlyEnd
import LuaFrontend.Proofs.ExpressionReading

set_option autoImplicit false

namespace LuaFrontend.Likeness

open LuaFrontend.Grammar
open LuaFrontend.Parser (Shrinks shrinks_behind failsAtEnd_expect_bind keepsEnd_of_reads
  keepsEnd_pure bind_eq_of_ok)

/-- Trees of a form that are the same but for their places. -/
def SameForm (L : Likeness) : (form : Form) → form.Tree → form.Tree → Prop
  | .block => L.Same Statement.mapSpansAll
  | .operand _ => Option.Rel (L.Same Expression.mapSpans)
  | .suffixed => Option.Rel (L.Same Expression.mapSpans)
  | .table => L.Same TableField.mapSpansAll
  | .arguments => L.Same Expression.mapSpansAll

/-- A name before another name is all that is read there. -/
def ReadsNames (below : Below) : Prop :=
  ∀ ⦃c result d t rest⦄, c.upcoming = .ok c.current :: .ok t :: rest →
    c.current.kind = .identifier → t.kind = .identifier → below .suffixed c = .ok result d →
      result = some (.name (.ofToken c.current)) ∧ d.current = t

section Names

variable {c d : Cursor}

theorem takes_of_name (name : c.current.kind = .identifier) (text : String) :
    Parser.takes text c = .ok false c := by
  have other : (Pattern.text text).accepts c.current = false := by
    simp [Pattern.accepts, name, Pattern.isFreelySpelled]
  rw [Parser.takes, Parser.liftM_consume, Parser.get_bind, other]
  rfl

/-- A name is no suffix. -/
theorem suffix?_of_name (below : Below) (name : c.current.kind = .identifier) (base : Expression) :
    suffix? below base c = .ok none c := by
  have arguments : callArguments? below c = .ok none c := by
    rw [callArguments?, Parser.current_bind, bind_eq_of_ok (takes_of_name name _)]
    simp only [Bool.false_eq_true, ↓reduceIte, Parser.get_bind]
    simp [Cursor.hasText, Pattern.accepts, name, Pattern.isFreelySpelled]
    rfl
  rw [suffix?, bind_eq_of_ok (takes_of_name name _)]
  simp only [Bool.false_eq_true, ↓reduceIte]
  rw [bind_eq_of_ok (takes_of_name name _)]
  simp only [Bool.false_eq_true, ↓reduceIte]
  rw [bind_eq_of_ok (takes_of_name name _)]
  simp only [Bool.false_eq_true, ↓reduceIte]
  rw [bind_eq_of_ok arguments]
  rfl

theorem base?_of_name (below : Below) (name : c.current.kind = .identifier)
    (moved : c.advance = .ok () d) : base? below c = .ok (some (.name (.ofToken c.current))) d := by
  have id : Parser.identifier c = .ok (.ofToken c.current) d := by
    rw [Parser.identifier, Parser.current_bind]
    simp only [name, ↓reduceIte]
    rw [bind_eq_of_ok (Parser.liftM_ok.mpr moved)]
    rfl
  rw [base?, Parser.current_bind]
  simp only [name, ↓reduceIte]
  rw [bind_eq_of_ok id]
  rfl

theorem readsNames_suffixed (below : Below) {result : Option Expression} {t : Token}
    {rest : List Outcome} (view : c.upcoming = .ok c.current :: .ok t :: rest)
    (first : c.current.kind = .identifier) (second : t.kind = .identifier)
    (run : suffixed below c = .ok result d) :
    result = some (.name (.ofToken c.current)) ∧ d.current = t := by
  obtain ⟨e, body, rfl⟩ := Parser.production_ok.mp run
  have seen : (c.record (.enter .suffixed)).upcoming = .ok c.current :: .ok t :: rest := view
  obtain ⟨g, moved, passes⟩ := Cursor.advance_of_token seen
  have here : g.current = t := by
    have both := passes.upcoming
    rw [seen] at both
    obtain ⟨-, both⟩ := List.cons.inj both
    exact (Except.ok.inj (List.cons.inj both).1).symm
  have alone (base : Expression) : Parser.grow (suffix? below) base g = .ok base g := by
    rw [Parser.grow, Parser.get_bind, Cursor.ahead, Parser.growUpTo,
      bind_eq_of_ok (suffix?_of_name below (here ▸ second) _)]
    rfl
  rw [bind_eq_of_ok (base?_of_name (c := c.record (.enter .suffixed)) below first moved)] at body
  simp only at body
  rw [bind_eq_of_ok (alone _)] at body
  obtain ⟨rfl, rfl⟩ := Parser.pure_ok.mp body
  exact ⟨rfl, here⟩

theorem readsNames_levels (depth : Nat) : ReadsNames (levels depth) := by
  intro c result d t rest view first second run
  cases depth with
  | zero => exact absurd run Parser.not_failHere_ok
  | succ depth => exact readsNames_suffixed (levels depth) view first second run

end Names

/-- The forms one level down run alike, on both sides. A block may end with the first text. -/
structure RunsForms (L : Likeness) (below other : Below) : Prop where
  runs : ∀ form, form ≠ .block → L.Runs (below form) (other form) (L.SameForm form)
  block : L.Partly (below .block) (other .block) (L.SameForm .block)
  reads : ReadsForms below
  otherReads : ReadsForms other
  names : ReadsNames below

variable {L : Likeness} {below other : Below}

theorem runs_expression? (h : L.RunsForms below other) :
    L.Runs (expression? below) (expression? other) (Option.Rel (L.Same Expression.mapSpans)) :=
  runs_production _ (h.runs (.operand 0) nofun)

theorem runs_expression (h : L.RunsForms below other) :
    L.Runs (expression below) (expression other) (L.Same Expression.mapSpans) :=
  runs_required _ (runs_expression? h)

theorem same_expressions {first second : List Expression}
    (h : List.Forall₂ (L.Same Expression.mapSpans) first second) :
    L.Same Expression.mapSpansAll first second := by
  simp only [Same, Expression.mapSpansAll_eq]
  exact same_list h

theorem runs_expressionList (h : L.RunsForms below other) :
    L.Runs (expressionList below) (expressionList other) (L.Same Expression.mapSpansAll) :=
  (runs_commaSeparated (runs_expression h) (shrinks_behind "," (reads_expression h.reads))
    (shrinks_behind "," (reads_expression h.otherReads))).mono fun _ _ => same_expressions

/-- Parameters with the same names. -/
structure SameParameters (L : Likeness) (first second : Parameters) : Prop where
  names : first.names.map (·.mapSpan L.left) = second.names.map (·.mapSpan L.right)
  isVararg : second.isVararg = first.isVararg
  isOpen : second.isOpen = first.isOpen

theorem runs_parameter {first second : Parameters} (h : L.SameParameters first second) :
    L.Runs (parameter first) (parameter second) (Option.Rel L.SameParameters) := by
  unfold parameter
  rw [h.isOpen]
  refine runs_ite (runs_pure .none) (runs_current_bind fun t u sees _ => ?_)
  simp only [kind_eq_iff sees .identifier (by decide)]
  refine runs_ite ?_ ?_
  · refine runs_identifier.bind fun name id named =>
      (runs_takes "," (.other rfl)).bind fun taken _ comma => ?_
    subst comma
    refine runs_pure (.some ⟨?_, h.isVararg, rfl⟩)
    simp only [List.map_append, h.names, List.map_singleton]
    exact congrArg (_ ++ [·]) named
  · exact runs_consume_bind (runs_pure (.some ⟨h.names, rfl, rfl⟩)) (runs_expected _) (.other rfl)

theorem runs_parameters : L.Runs parameters parameters L.SameParameters := by
  have start : L.SameParameters {} {} := ⟨rfl, rfl, rfl⟩
  refine (runs_expect "(" (.other rfl)).bind fun _ _ _ =>
    (runs_takes ")" (.other rfl)).bind fun taken _ same => ?_
  subst same
  refine runs_ite (runs_pure start) ?_
  refine (runs_grow (fun _ _ => runs_parameter) shrinks_parameter shrinks_parameter start).bind
    fun _ _ list => (runs_expect ")" (.other rfl)).bind fun _ _ _ => runs_pure list

theorem runs_functionBody (h : L.RunsForms below other) :
    L.Runs (functionBody below) (functionBody other) (L.Same FunctionBody.mapSpans) := by
  refine runs_production _ (runs_parameters.bind fun first second list => ?_)
  refine h.block.bind_failing
    (fun block _ same => (runs_expect "end" (.other rfl)).bind fun _ _ _ => ?_)
    fun _ => failsAtEnd_expect_bind _ _
  refine runs_pure ?_
  simp only [Same, FunctionBody.mapSpans, list.names, list.isVararg]
  exact congrArg _ same

/-- Only a name is a key, and no text ends at a name. -/
theorem runs_isKey_bind {α β : Type} {start : Token → Token → Prop} {f : Bool → Parser α}
    {g : Bool → Parser β} {r : α → β → Prop} (yes : L.RunsFrom L.token (f true) (g true) r)
    (no : L.Runs (f false) (g false) r) : L.RunsFrom start (isKey >>= f) (isKey >>= g) r := by
  simp only [isKey, bind_assoc]
  refine runs_current_bind fun t u sees _ => ?_
  simp only [kind_eq_iff sees .identifier (by decide)]
  split
  · next named =>
    have same := sees.token_of_kind named (by decide)
    refine (runs_nextMatchesAny_bind (fun key => ?_) rfl).at same
    cases key with
    | true => exact yes
    | false => exact fun c d both _ => no both both.sees
  · simp only [pure_bind]
    exact fun c d both _ => no both both.sees

theorem runs_field? (h : L.RunsForms below other) :
    L.Runs (field? below) (field? other) (Option.Rel (L.Same TableField.mapSpans)) := by
  refine runs_takes_bind ?_ (runs_isKey_bind ?_ ?_) (.other rfl)
  · refine (runs_expression h).bind fun _ _ key => (runs_expect "]" (.other rfl)).bind fun _ _ _ =>
      (runs_expect "=" (.other rfl)).bind fun _ _ _ => (runs_expression h).bind fun _ _ value =>
        runs_pure (.some ?_)
    simp only [Same, TableField.mapSpans]
    rw [key, value]
  · refine runs_current_bind fun t u _ name => ?_
    refine ((runs_discard (runs_consumeNext _ rfl)).at name).bind fun _ _ _ =>
      (runs_expression h).bind fun _ _ value => runs_pure (.some ?_)
    simp only [Same, TableField.mapSpans]
    rw [same_identifier name, value]
  · refine (runs_expression? h).bind fun _ _ value => runs_pure ?_
    cases value with
    | none => exact .none
    | some value => exact .some (congrArg TableField.value value)

theorem partly_separator : L.Partly separator separator Eq := by
  refine PartlyFrom.of_token (RunsFrom.partly ?_) (keepsEnd_of_reads reads_separator)
  refine runs_get_bind fun c d both same => ?_
  simp only [Cursor.matchesAny, List.any_cons, List.any_nil, accepts_eq_of_token same]
  exact runs_ite ((runs_advance.bind fun _ _ _ => runs_pure rfl).at same) (runs_pure rfl)

theorem partly_nextField (h : L.RunsForms below other) :
    L.Partly (do if ← separator then field? below else return none : Parser (Option TableField))
      (do if ← separator then field? other else return none : Parser (Option TableField))
      (Option.Rel (L.Same TableField.mapSpans)) := by
  refine partly_separator.bind (fun taken _ same => ?_) fun taken => ?_
  · subst same
    exact (runs_ite (runs_field? h) (runs_pure .none)).partly
  · cases taken with
    | true => exact keepsEnd_of_reads (reads_field? h.reads)
    | false => exact keepsEnd_pure _

theorem shrinks_nextField (h : ReadsForms below) :
    Shrinks
      (do if ← separator then field? below else return none : Parser (Option TableField)) := by
  intro c f d input run
  have reads := reads_nextField h input run
  refine ⟨reads.input, reads.length_lt ?_⟩
  simp [Language.mem_add]

theorem partly_fields (h : L.RunsForms below other) :
    L.Partly (fields below) (fields other) (L.Same TableField.mapSpansAll) := by
  refine (runs_field? h).bind_partly fun _ _ first => ?_
  cases first with
  | none => exact RunsFrom.partly (runs_pure rfl)
  | some first =>
    refine (partly_many (partly_nextField h) (keepsEnd_of_reads (reads_nextField h.reads))
      (shrinks_nextField h.reads) (shrinks_nextField h.otherReads)).bind
        (fun _ _ others => RunsFrom.partly (runs_pure ?_)) fun _ => keepsEnd_pure _
    simp only [Same, TableField.mapSpansAll_eq]
    exact same_list (.cons first others)

theorem runs_table (h : L.RunsForms below other) :
    L.Runs (table below) (table other) (L.SameForm .table) :=
  runs_production _ ((runs_expect "\x7b" (.other rfl)).bind fun _ _ _ =>
    (partly_fields h).bind_failing
      (fun _ _ fields => (runs_expect "\x7d" (.other rfl)).bind fun _ _ _ => runs_pure fields)
      fun _ => failsAtEnd_expect_bind _ _)

theorem hasText_eq {c d : Cursor} (h : L.Cursors c d) {text : String}
    (other : (Pattern.text text).isStop = false) : d.hasText text = c.hasText text :=
  accepts_eq h.sees other

theorem runs_arguments (h : L.RunsForms below other) :
    L.Runs (arguments below) (arguments other) (L.SameForm .arguments) := by
  refine runs_get_bind fun c d both sees => ?_
  rw [hasText_eq both rfl]
  exact runs_ite (runs_pure rfl) ((runs_expressionList h).at sees)

theorem same_string {t u : Token} (h : L.token t u) :
    L.Same Literal.mapSpan ⟨.string, t.text, t.span⟩ ⟨.string, u.text, u.span⟩ := by
  simp only [Same, Literal.mapSpan, L.text h, L.span h]

theorem runs_callArguments? (h : L.RunsForms below other) :
    L.Runs (callArguments? below) (callArguments? other)
      (Option.Rel (L.Same Arguments.mapSpans)) := by
  refine runs_current_bind fun t u sees _ =>
    runs_takes_bind ?_ (runs_get_bind fun c d both is => ?_) (.other rfl)
  · refine (h.runs .arguments nofun).bind fun _ _ values =>
      (runs_expect ")" (.other rfl)).bind fun _ _ _ => runs_pure (.some ?_)
    exact congrArg Arguments.list values
  · obtain ⟨rfl, rfl⟩ := is
    rw [hasText_eq both rfl]
    simp only [kind_eq_iff sees .string (by decide)]
    split
    · refine ((h.runs .table nofun).at sees).bind fun _ _ fields => runs_pure (.some ?_)
      exact congrArg Arguments.table fields
    · split
      · next quoted =>
        have same := sees.token_of_kind quoted (by decide)
        refine (runs_advance.at same).bind fun _ _ _ => runs_pure (.some ?_)
        exact congrArg Arguments.string (same_string same)
      · exact runs_pure .none

theorem runs_base? (h : L.RunsForms below other) :
    L.Runs (base? below) (base? other) (Option.Rel (L.Same Expression.mapSpans)) := by
  refine runs_current_bind fun t u sees _ => ?_
  simp only [kind_eq_iff sees .identifier (by decide)]
  refine runs_ite ?_ (runs_takes_bind ?_ (runs_pure .none) (.other rfl))
  · exact runs_identifier.bind fun _ _ name => runs_pure (.some (congrArg Expression.name name))
  · exact (runs_expression h).bind fun _ _ inner => (runs_expect ")" (.other rfl)).bind fun _ _ _ =>
      runs_pure (.some (congrArg Expression.group inner))

theorem runs_suffix? (h : L.RunsForms below other) {base base' : Expression}
    (same : L.Same Expression.mapSpans base base') :
    L.Runs (suffix? below base) (suffix? other base')
      (Option.Rel (L.Same Expression.mapSpans)) := by
  refine (runs_takes "[" (.other rfl)).bind fun bracket _ taken => ?_
  subst taken
  refine runs_ite ?_ ((runs_takes "." (.other rfl)).bind fun dot _ taken => ?_)
  · refine (runs_expression h).bind fun _ _ key => (runs_expect "]" (.other rfl)).bind fun _ _ _ =>
      runs_pure (.some ?_)
    exact congrArg₂ Expression.index same key
  · subst taken
    refine runs_ite ?_ ((runs_takes ":" (.other rfl)).bind fun colon _ taken => ?_)
    · exact runs_identifier.bind fun _ _ field =>
        runs_pure (.some (congrArg₂ Expression.member same field))
    · subst taken
      refine runs_ite ?_ ((runs_callArguments? h).bind fun _ _ arguments => runs_pure ?_)
      · refine runs_identifier.bind fun _ _ method =>
          (runs_required _ (runs_callArguments? h)).bind fun _ _ arguments =>
            runs_pure (.some ?_)
        simp only [Same, Expression.mapSpans]
        rw [same, method, arguments]
      · cases arguments with
        | none => exact .none
        | some arguments => exact .some (congrArg₂ Expression.call same arguments)

theorem runs_suffixed (h : L.RunsForms below other) :
    L.Runs (suffixed below) (suffixed other) (L.SameForm .suffixed) := by
  refine runs_production _ ((runs_base? h).bind fun _ _ base => ?_)
  cases base with
  | none => exact runs_pure .none
  | some base =>
    exact (runs_grow (fun _ _ => runs_suffix? h)
      (Parser.shrinks_of_extends (extends_suffix? h.reads))
      (Parser.shrinks_of_extends (extends_suffix? h.otherReads)) base).bind
        fun _ _ whole => runs_pure (.some whole)

theorem same_literal {t u : Token} (h : L.token t u) :
    Option.Rel (L.Same Literal.mapSpan) (Literal.ofToken? t) (Literal.ofToken? u) := by
  unfold Literal.ofToken?
  rw [L.kind h, L.text h]
  cases t.kind <;>
    first
    | exact .none
    | exact .some (by simp only [Same, Literal.mapSpan, L.span h])

theorem ofToken?_of_stop {t u : Token} (h : L.stop t u) :
    Literal.ofToken? t = none ∧ Literal.ofToken? u = none := by
  simp only [Literal.ofToken?, kind_eq_end h, L.kind_of_stop h, and_self]

theorem runs_primary? (h : L.RunsForms below other) :
    L.Runs (primary? below) (primary? other) (Option.Rel (L.Same Expression.mapSpans)) := by
  have others {t u : Token} (sees : L.Sees t u) : L.RunsFrom (At t u)
      (do
        if ← Parser.takes "function" then return some (.function (← functionBody below))
        else if (← get).hasText "\x7b" then return some (.table (← below .table))
        else below .suffixed)
      (do
        if ← Parser.takes "function" then return some (.function (← functionBody other))
        else if (← get).hasText "\x7b" then return some (.table (← other .table))
        else other .suffixed) (Option.Rel (L.Same Expression.mapSpans)) := by
    refine runs_takes_bind ?_ (runs_get_bind fun c d both is => ?_) (.other rfl)
    · exact (runs_functionBody h).bind fun _ _ value =>
        runs_pure (.some (congrArg Expression.function value))
    · obtain ⟨rfl, rfl⟩ := is
      rw [hasText_eq both rfl]
      refine runs_ite ?_ ((h.runs .suffixed nofun).at sees)
      exact ((h.runs .table nofun).at sees).bind fun _ _ fields =>
        runs_pure (.some (congrArg Expression.table fields))
  refine runs_production _ (runs_current_bind fun t u sees _ => ?_)
  rcases sees with same | stop
  · have literal := same_literal same
    cases first : Literal.ofToken? t <;> cases second : Literal.ofToken? u <;>
      rw [first, second] at literal
    · exact others (.inl same)
    · cases literal
    · cases literal
    · cases literal with
      | some value =>
        exact (runs_advance.at same).bind fun _ _ _ =>
          runs_pure (.some (congrArg Expression.literal value))
  · rw [(ofToken?_of_stop stop).1, (ofToken?_of_stop stop).2]
    exact others (.inr stop)

theorem unaryOperator?_of_stop {t u : Token} (h : L.stop t u) :
    unaryOperator? t = none ∧ unaryOperator? u = none := by
  simp only [unaryOperator?, kind_eq_end h, L.kind_of_stop h, L.text_of_stop h]
  exact ⟨rfl, rfl⟩

theorem binaryOperator?_of_stop {t u : Token} (h : L.stop t u) :
    binaryOperator? t = none ∧ binaryOperator? u = none := by
  simp only [binaryOperator?, kind_eq_end h, L.kind_of_stop h, L.text_of_stop h]
  exact ⟨rfl, rfl⟩

/-- The same operator, or none where the first text has ended. -/
theorem unaryOperator?_cases {t u : Token} (h : L.Sees t u) :
    unaryOperator? u = unaryOperator? t ∧ ((unaryOperator? t).isSome → L.token t u) := by
  rcases h with same | stop
  · simp only [unaryOperator?, L.kind same, L.text same]
    exact ⟨trivial, fun _ => same⟩
  · rw [(unaryOperator?_of_stop stop).1, (unaryOperator?_of_stop stop).2]
    exact ⟨rfl, nofun⟩

theorem binaryOperator?_cases {t u : Token} (h : L.Sees t u) :
    binaryOperator? u = binaryOperator? t ∧ ((binaryOperator? t).isSome → L.token t u) := by
  rcases h with same | stop
  · simp only [binaryOperator?, L.kind same, L.text same]
    exact ⟨trivial, fun _ => same⟩
  · rw [(binaryOperator?_of_stop stop).1, (binaryOperator?_of_stop stop).2]
    exact ⟨rfl, nofun⟩

theorem runs_prefixed? (h : L.RunsForms below other) :
    L.Runs (prefixed? below) (prefixed? other) (Option.Rel (L.Same Expression.mapSpans)) := by
  refine runs_current_bind fun t u sees _ => ?_
  obtain ⟨eq, inside⟩ := unaryOperator?_cases sees
  rw [eq]
  cases operator : unaryOperator? t with
  | none => exact (runs_primary? h).at sees
  | some operator' =>
    rw [operator] at inside
    exact (runs_advance.at (inside rfl)).bind fun _ _ _ =>
      (runs_required _ (h.runs (.operand _) nofun)).bind fun _ _ operand =>
        runs_pure (.some (congrArg (Expression.unary operator') operand))

theorem runs_joined? (h : L.RunsForms below other) (limit : Nat) {left left' : Expression}
    (same : L.Same Expression.mapSpans left left') :
    L.Runs (joined? below limit left) (joined? other limit left')
      (Option.Rel (L.Same Expression.mapSpans)) := by
  refine runs_current_bind fun t u sees _ => ?_
  obtain ⟨eq, inside⟩ := binaryOperator?_cases sees
  rw [eq]
  cases operator : binaryOperator? t with
  | none => exact runs_pure .none
  | some operator' =>
    rw [operator] at inside
    refine runs_ite (runs_pure .none) ?_
    exact (runs_advance.at (inside rfl)).bind fun _ _ _ =>
      (runs_required _ (h.runs (.operand _) nofun)).bind fun _ _ right =>
        runs_pure (.some (congrArg₂ (Expression.binary operator') same right))

theorem runs_operand (h : L.RunsForms below other) (limit : Nat) :
    L.Runs (operand below limit) (operand other limit) (L.SameForm (.operand limit)) := by
  refine (runs_prefixed? h).bind fun _ _ left => ?_
  cases left with
  | none => exact runs_pure .none
  | some left =>
    exact (runs_grow (fun _ _ => runs_joined? h limit)
      (Parser.shrinks_of_extends (extends_joined? h.reads limit))
      (Parser.shrinks_of_extends (extends_joined? h.otherReads limit)) left).bind
        fun _ _ whole => runs_pure (.some whole)

end LuaFrontend.Likeness
