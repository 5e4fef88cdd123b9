import LuaFrontend.Proofs.TokenReading

set_option autoImplicit false

namespace LuaFrontend.Grammar

open LuaFrontend.Parser
open Outcome (IsInput)

/-- How the tree of a form is written. -/
def writtenForm : (form : Form) → form.Tree → Language Token
  | .block => Statement.writtenAll
  | .operand _ => ifAny Expression.written
  | .suffixed => ifAny Expression.written
  | .table => fun fields => word "\x7b" * TableField.writtenAll fields * word "\x7d"
  | .arguments => fun values => separatedBy (word ",") (Expression.writtenEach values)

def ReadsForms (below : Below) : Prop := ∀ form, (below form).Reads (writtenForm form)

variable {below : Below} {c d : Cursor}

theorem reads_expression? (h : ReadsForms below) :
    (expression? below).Reads (ifAny Expression.written) :=
  reads_production (h (.operand 0))

theorem reads_expression (h : ReadsForms below) :
    (expression below).Reads Expression.written :=
  reads_required (reads_expression? h)

theorem reads_expressionList (h : ReadsForms below) :
    (expressionList below).Reads
      fun values => separatedBy (word ",") (Expression.writtenEach values) := by
  simp only [Expression.writtenEach_eq]
  exact reads_commaSeparated (reads_expression h)

/-- The parameters that have been read, each with its comma if another one has to follow. -/
def Parameters.written (list : Parameters) : Language Token :=
  if list.isOpen then (list.names.map (·.written * word ",")).prod
  else separatedBy (word ",") (list.names.map (·.written) ++
    if list.isVararg then [word "..."] else [])

/-- Nothing can follow `...`. -/
def Parameters.IsProper (list : Parameters) : Prop := list.isOpen → list.isVararg = false

theorem parameter_none {list : Parameters} (run : parameter list c = .ok none d) :
    list.isOpen = false ∧ d = c := by
  unfold parameter at run
  split at run
  · next closed =>
    obtain ⟨-, rfl⟩ := pure_ok.mp run
    exact ⟨by simpa using closed, rfl⟩
  · rw [current_bind] at run
    split at run
    · obtain ⟨_, _, -, body⟩ := bind_ok.mp run
      obtain ⟨_, _, -, result⟩ := bind_ok.mp body
      cases (pure_ok.mp result).1
    · obtain ⟨taken, e, -, body⟩ := bind_ok.mp run
      cases taken with
      | true => cases (pure_ok.mp body).1
      | false => exact (not_expected_ok body).elim

/-- A vararg is written as three dots. -/
theorem reads_vararg {taken : Unit} (input : IsInput c.upcoming) (vararg : c.current.kind = .vararg)
    (moved : Cursor.advance c = .ok taken d) : c.Reads (word "...") d := by
  have spelled : (Pattern.text "...").accepts c.current := by
    simp [Pattern.accepts, vararg, Pattern.isFreelySpelled, input.text_of_vararg vararg]
  have passes := Cursor.passes_of_advance moved input (by simp [Token.isEnd, vararg])
  exact .of_passes passes input ⟨_, rfl, spelled⟩

/-- A parameter is read behind those before it. -/
theorem parameter_some {list next : Parameters} (input : IsInput c.upcoming)
    (run : parameter list c = .ok (some next) d) :
    ∃ m, [] ∉ m ∧ c.Reads m d ∧
      (list.IsProper → next.IsProper ∧ next.written = list.written * m) := by
  unfold parameter at run
  split at run
  · cases (pure_ok.mp run).1
  · next open_ =>
    have wide : list.isOpen = true := by simpa using open_
    rw [current_bind] at run
    split at run
    · obtain ⟨name, e, named, body⟩ := bind_ok.mp run
      obtain ⟨taken, f, comma, result⟩ := bind_ok.mp body
      obtain ⟨same, rfl⟩ := pure_ok.mp result
      cases same
      have first := reads_identifier input named
      cases taken with
      | true =>
        have both := first.mul (reads_of_takes first.input comma)
        refine ⟨_, ?_, both, fun proper => ⟨fun _ => proper wide, ?_⟩⟩
        · simp
        · simp [Parameters.written, wide]
      | false =>
        obtain rfl := eq_of_takes_false comma
        refine ⟨_, ?_, first, fun proper => ⟨fun more => (Bool.noConfusion more), ?_⟩⟩
        · rintro ⟨_, empty, -⟩
          cases empty
        · have only : list.isVararg = false := proper wide
          simp [Parameters.written, wide, only, separatedBy_append_singleton]
          rfl
    · obtain ⟨taken, e, consumed, body⟩ := bind_ok.mp run
      cases taken with
      | false => exact (not_expected_ok body).elim
      | true =>
        obtain ⟨same, rfl⟩ := pure_ok.mp body
        cases same
        obtain ⟨accepted, moved⟩ := consume_ok (liftM_ok.mp consumed)
        have vararg : c.current.kind = .vararg := by simpa [Pattern.accepts] using accepted
        refine ⟨word "...", by simp, reads_vararg input vararg moved, fun _ => ⟨?_, ?_⟩⟩
        · exact fun more => Bool.noConfusion more
        · simp [Parameters.written, wide, separatedBy_append_singleton]
          rfl

theorem shrinks_parameter (list : Parameters) : Shrinks (parameter list) := by
  intro c next d input run
  obtain ⟨m, more, reads, -⟩ := parameter_some input run
  exact ⟨reads.input, reads.length_lt more⟩

theorem reads_parameters :
    parameters.Reads fun list => writtenParameters list.names list.isVararg := by
  intro c list d input run
  obtain ⟨_, e, left, run₁⟩ := bind_ok.mp run
  obtain ⟨taken, f, right, run₂⟩ := bind_ok.mp run₁
  have opening := reads_of_expect input left
  cases taken with
  | true =>
    obtain ⟨rfl, rfl⟩ := pure_ok.mp run₂
    simpa [writtenParameters, separatedBy] using opening.mul (reads_of_takes opening.input right)
  | false =>
    obtain rfl := eq_of_takes_false right
    obtain ⟨last, g, grown, run₃⟩ := bind_ok.mp run₂
    obtain ⟨_, k, closing, result⟩ := bind_ok.mp run₃
    obtain ⟨rfl, rfl⟩ := pure_ok.mp result
    have start : f.Reads (Parameters.written {}) f := .refl opening.input
    -- Every round leaves a proper list, whose parameters have been read.
    obtain ⟨k, ⟨proper, reads⟩, none⟩ := grow_ok shrinks_parameter
      (fun list k => list.IsProper ∧ f.Reads list.written k)
      (fun a b k l holds step => by
        obtain ⟨proper, reads⟩ := holds
        obtain ⟨m, -, further, same⟩ := parameter_some reads.input step
        rw [(same proper).2]
        exact ⟨(same proper).1, reads.mul further⟩)
      opening.input ⟨fun _ => rfl, start⟩ grown
    obtain ⟨closed, rfl⟩ := parameter_none none
    rw [Parameters.written, if_neg (by simp [closed])] at reads
    exact (opening.mul reads).mul (reads_of_expect reads.input closing)

theorem reads_functionBody (h : ReadsForms below) :
    (functionBody below).Reads FunctionBody.written := by
  refine reads_production fun c value d input run => ?_
  obtain ⟨list, e, parameters, run₁⟩ := bind_ok.mp run
  obtain ⟨block, f, inside, run₂⟩ := bind_ok.mp run₁
  obtain ⟨_, g, closing, result⟩ := bind_ok.mp run₂
  obtain ⟨rfl, rfl⟩ := pure_ok.mp result
  have first := reads_parameters input parameters
  have body := first.mul (h .block first.input inside)
  exact body.mul (reads_of_expect body.input closing)

theorem isKey_ok {key : Bool} (run : isKey c = .ok key d) :
    c.Passes [] d ∧ (key → c.current.kind = .identifier ∧ ∃ t rest,
      c.upcoming = .ok c.current :: .ok t :: rest ∧ (Pattern.text "=").accepts t) := by
  rw [isKey, current_bind] at run
  split at run
  · next named =>
    obtain ⟨t, e, following, result⟩ := bind_ok.mp (liftM_ok.mp run)
    obtain ⟨rfl, rfl⟩ := pure_ok.mp result
    rcases Cursor.next_cases c with ⟨e, last, passes, -⟩ | ⟨u, rest, e, other, passes, same⟩ |
      ⟨e, rest, f, failed, -⟩
    · rw [last] at following
      cases following
      exact ⟨passes, by simp [Pattern.accepts, named, Pattern.isFreelySpelled]⟩
    · rw [other] at following
      cases following
      exact ⟨passes, fun accepted => ⟨named, t, rest, same, by simpa using accepted⟩⟩
    · rw [failed] at following
      cases following
  · obtain ⟨rfl, rfl⟩ := pure_ok.mp run
    exact ⟨.refl _, fun impossible => Bool.noConfusion impossible⟩

/-- A name is taken together with the sign behind it. -/
theorem reads_consumeNext {sign : String} {t : Token} {rest : List Outcome} {u : Unit}
    (input : IsInput c.upcoming) (named : c.current.kind = .identifier)
    (view : c.upcoming = .ok c.current :: .ok t :: rest) (accepted : (Pattern.text sign).accepts t)
    (run : (discard (Cursor.consumeNext (.text sign)) : Parser Unit) c = .ok u d) :
    c.Reads ((Identifier.ofToken c.current).written * word sign) d := by
  obtain ⟨taken, body⟩ := discard_ok.mp run
  obtain ⟨next, e, following, run₁⟩ := bind_ok.mp (liftM_ok.mp body)
  have ahead := Cursor.passes_of_next following
  have same : next = t := by
    rcases Cursor.next_cases c with ⟨_, -, -, only⟩ | ⟨_, _, _, other, -, same⟩ |
      ⟨_, _, _, failed, -⟩
    · simp [view] at only
    · rw [view] at same
      cases same
      rw [other] at following
      cases following
      rfl
    · rw [failed] at following
      cases following
  subst same
  rw [if_pos accepted] at run₁
  obtain ⟨_, f, first, run₂⟩ := bind_ok.mp run₁
  obtain ⟨_, g, second, result⟩ := bind_ok.mp run₂
  obtain ⟨rfl, rfl⟩ := pure_ok.mp result
  have name : [c.current] ∈ (Identifier.ofToken c.current).written := ⟨_, rfl, named, rfl⟩
  have toName := Cursor.passes_of_advance first (ahead.input input)
    (by rw [ahead.current_eq]; simp [Token.isEnd, named])
  have before := ahead.trans toName
  rw [ahead.current_eq] at before
  have current : f.current = next := by
    have views := before.upcoming
    rw [view] at views
    simp only [List.nil_append, List.map_cons, List.map_nil, List.cons_append, List.cons.injEq,
      true_and, Cursor.upcoming, Except.ok.injEq] at views
    exact views.1.symm
  have toSign := Cursor.passes_of_advance second (before.input input)
    (by rw [current]; exact isEnd_of_accepts accepted)
  rw [current] at toSign
  exact .of_passes (before.trans toSign) input
    (Language.append_mem_mul name (mem_word.mpr accepted))

theorem reads_field? (h : ReadsForms below) : (field? below).Reads (ifAny TableField.written) := by
  intro c result d input run
  obtain ⟨taken, e, left, run₁⟩ := bind_ok.mp run
  cases taken with
  | true =>
    obtain ⟨key, f, ofKey, run₂⟩ := bind_ok.mp run₁
    obtain ⟨_, g, right, run₃⟩ := bind_ok.mp run₂
    obtain ⟨_, k, sign, run₄⟩ := bind_ok.mp run₃
    obtain ⟨value, l, ofValue, result⟩ := bind_ok.mp run₄
    obtain ⟨rfl, rfl⟩ := pure_ok.mp result
    have opening := reads_of_takes input left
    have toKey := opening.mul (reads_expression h opening.input ofKey)
    have toRight := toKey.mul (reads_of_expect toKey.input right)
    have toSign := toRight.mul (reads_of_expect toRight.input sign)
    exact toSign.mul (reads_expression h toSign.input ofValue)
  | false =>
    obtain rfl := eq_of_takes_false left
    obtain ⟨key, f, ofKey, run₂⟩ := bind_ok.mp run₁
    obtain ⟨passes, following⟩ := isKey_ok ofKey
    cases key with
    | true =>
      obtain ⟨named, t, rest, view, accepted⟩ := following rfl
      simp only [if_true, current_bind] at run₂
      obtain ⟨_, g, consumed, run₃⟩ := bind_ok.mp run₂
      obtain ⟨value, k, ofValue, result⟩ := bind_ok.mp run₃
      obtain ⟨rfl, rfl⟩ := pure_ok.mp result
      rw [← passes.current_eq, ← passes.upcoming_eq] at view
      have first := reads_consumeNext (passes.input input) (passes.current_eq ▸ named) view
        accepted consumed
      exact .behind passes (first.mul (reads_expression h first.input ofValue))
    | false =>
      obtain ⟨value, g, ofValue, result⟩ := bind_ok.mp run₂
      obtain ⟨rfl, rfl⟩ := pure_ok.mp result
      have reads := Cursor.Reads.behind passes (reads_expression? h (passes.input input) ofValue)
      cases value <;> exact reads

theorem reads_separator :
    separator.Reads fun taken => if taken then word "," + word ";" else 1 := by
  intro c taken d input run
  rw [separator, get_bind] at run
  split at run
  · next accepted =>
    obtain ⟨_, e, moved, result⟩ := bind_ok.mp run
    obtain ⟨rfl, rfl⟩ := pure_ok.mp result
    simp only [Cursor.matchesAny, List.any_cons, List.any_nil, Bool.or_false,
      Bool.or_eq_true] at accepted
    refine reads_of_advance input (accepted.elim isEnd_of_accepts isEnd_of_accepts) ?_ moved
    exact accepted.imp mem_word.mpr mem_word.mpr
  · obtain ⟨rfl, rfl⟩ := pure_ok.mp run
    exact .refl input

/-- A field behind its separator, or a separator that is the last, or none. -/
theorem reads_nextField (h : ReadsForms below) :
    (do if ← separator then field? below else return none : Parser (Option TableField)).Reads
      (·.elim (1 + (word "," + word ";")) ((word "," + word ";") * ·.written)) := by
  intro c result d input run
  obtain ⟨taken, e, sign, run₁⟩ := bind_ok.mp run
  have first := reads_separator input sign
  cases taken with
  | true =>
    have reads := first.mul (reads_field? h first.input run₁)
    cases result with
    | some f => exact reads
    | none => exact (mul_one (word "," + word ";") ▸ reads).right
  | false =>
    obtain ⟨rfl, rfl⟩ := pure_ok.mp run₁
    exact first.left

theorem reads_fields (h : ReadsForms below) : (fields below).Reads TableField.writtenAll := by
  intro c result d input run
  obtain ⟨first, e, ofFirst, run₁⟩ := bind_ok.mp run
  have head := reads_field? h input ofFirst
  cases first with
  | some first =>
    obtain ⟨others, f, ofOthers, result⟩ := bind_ok.mp run₁
    obtain ⟨rfl, rfl⟩ := pure_ok.mp result
    rw [TableField.writtenAll_cons]
    exact head.mul (reads_many_last (reads_nextField h) (.inl rfl) head.input ofOthers)
  | none =>
    obtain ⟨rfl, rfl⟩ := pure_ok.mp run₁
    exact head

theorem reads_table (h : ReadsForms below) : (table below).Reads (writtenForm .table) := by
  refine reads_production fun c fields d input run => ?_
  obtain ⟨_, e, left, run₁⟩ := bind_ok.mp run
  obtain ⟨fields, f, inside, run₂⟩ := bind_ok.mp run₁
  obtain ⟨_, g, right, result⟩ := bind_ok.mp run₂
  obtain ⟨rfl, rfl⟩ := pure_ok.mp result
  have opening := reads_of_expect input left
  have body := opening.mul (reads_fields h opening.input inside)
  exact body.mul (reads_of_expect body.input right)

theorem reads_arguments (h : ReadsForms below) :
    (arguments below).Reads (writtenForm .arguments) := by
  intro c values d input run
  rw [arguments, get_bind] at run
  split at run
  · obtain ⟨rfl, rfl⟩ := pure_ok.mp run
    exact .refl input
  · exact reads_expressionList h input run

theorem reads_callArguments? (h : ReadsForms below) :
    (callArguments? below).Reads (ifAny Arguments.written) := by
  intro c result d input run
  rw [callArguments?, current_bind] at run
  obtain ⟨taken, e, left, run₁⟩ := bind_ok.mp run
  cases taken with
  | true =>
    obtain ⟨values, f, inside, run₂⟩ := bind_ok.mp run₁
    obtain ⟨_, g, right, result⟩ := bind_ok.mp run₂
    obtain ⟨rfl, rfl⟩ := pure_ok.mp result
    have opening := reads_of_takes input left
    have body := opening.mul (h .arguments opening.input inside)
    exact body.mul (reads_of_expect body.input right)
  | false =>
    obtain rfl := eq_of_takes_false left
    simp only [Bool.false_eq_true, if_false, get_bind] at run₁
    split at run₁
    · obtain ⟨fields, f, inside, result⟩ := bind_ok.mp run₁
      obtain ⟨rfl, rfl⟩ := pure_ok.mp result
      exact h .table input inside
    · split at run₁
      · next string =>
        obtain ⟨_, f, moved, result⟩ := bind_ok.mp run₁
        obtain ⟨rfl, rfl⟩ := pure_ok.mp result
        refine reads_of_advance input (by simp [Token.isEnd, string]) ⟨_, rfl, ?_⟩ moved
        simp [Literal.ofToken?, string]
      · obtain ⟨rfl, rfl⟩ := pure_ok.mp run₁
        exact .refl input

theorem reads_base? (h : ReadsForms below) :
    (base? below).Reads (ifAny Expression.written) := by
  intro c result d input run
  rw [base?, current_bind] at run
  split at run
  · obtain ⟨id, e, named, result⟩ := bind_ok.mp run
    obtain ⟨rfl, rfl⟩ := pure_ok.mp result
    exact reads_identifier input named
  · obtain ⟨taken, e, left, run₁⟩ := bind_ok.mp run
    cases taken with
    | true =>
      obtain ⟨inner, f, inside, run₂⟩ := bind_ok.mp run₁
      obtain ⟨_, g, right, result⟩ := bind_ok.mp run₂
      obtain ⟨rfl, rfl⟩ := pure_ok.mp result
      have opening := reads_of_takes input left
      have body := opening.mul (reads_expression h opening.input inside)
      exact body.mul (reads_of_expect body.input right)
    | false =>
      obtain rfl := eq_of_takes_false left
      obtain ⟨rfl, rfl⟩ := pure_ok.mp run₁
      exact .refl input

theorem extends_suffix? (h : ReadsForms below) :
    Extends (suffix? below) Expression.written := by
  intro base c result d input run
  obtain ⟨bracket, e, left, run₁⟩ := bind_ok.mp run
  cases bracket with
  | true =>
    obtain ⟨key, f, ofKey, run₂⟩ := bind_ok.mp run₁
    obtain ⟨_, g, right, result⟩ := bind_ok.mp run₂
    obtain ⟨rfl, rfl⟩ := pure_ok.mp result
    have opening := reads_of_takes input left
    have body := opening.mul (reads_expression h opening.input ofKey)
    exact ⟨_, by simp, rfl, body.mul (reads_of_expect body.input right)⟩
  | false =>
    obtain rfl := eq_of_takes_false left
    obtain ⟨dot, f, isDot, run₂⟩ := bind_ok.mp run₁
    cases dot with
    | true =>
      obtain ⟨field, g, named, result⟩ := bind_ok.mp run₂
      obtain ⟨rfl, rfl⟩ := pure_ok.mp result
      have opening := reads_of_takes input isDot
      exact ⟨_, by simp, rfl, opening.mul (reads_identifier opening.input named)⟩
    | false =>
      obtain rfl := eq_of_takes_false isDot
      obtain ⟨colon, g, isColon, run₃⟩ := bind_ok.mp run₂
      cases colon with
      | true =>
        obtain ⟨method, k, named, run₄⟩ := bind_ok.mp run₃
        obtain ⟨values, l, called, result⟩ := bind_ok.mp run₄
        obtain ⟨rfl, rfl⟩ := pure_ok.mp result
        have opening := reads_of_takes input isColon
        have toName := opening.mul (reads_identifier opening.input named)
        have reads := reads_required (reads_callArguments? h) toName.input called
        exact ⟨_, by simp, rfl, toName.mul reads⟩
      | false =>
        obtain rfl := eq_of_takes_false isColon
        obtain ⟨values, k, called, result⟩ := bind_ok.mp run₃
        obtain ⟨rfl, rfl⟩ := pure_ok.mp result
        have reads := reads_callArguments? h input called
        cases values with
        | some values => exact ⟨_, by simp, rfl, reads⟩
        | none => exact reads

theorem reads_suffixed (h : ReadsForms below) :
    (suffixed below).Reads (ifAny Expression.written) := by
  refine reads_production fun c result d input run => ?_
  obtain ⟨base, e, ofBase, run₁⟩ := bind_ok.mp run
  have head := reads_base? h input ofBase
  cases base with
  | some base =>
    obtain ⟨whole, f, grown, result⟩ := bind_ok.mp run₁
    obtain ⟨rfl, rfl⟩ := pure_ok.mp result
    obtain ⟨m, same, reads⟩ := reads_grow (extends_suffix? h) head.input grown
    change c.Reads whole.written _
    rw [same]
    exact head.mul reads
  | none =>
    obtain ⟨rfl, rfl⟩ := pure_ok.mp run₁
    exact head

theorem isEnd_of_literal {t : Token} {value : Literal} (h : Literal.ofToken? t = some value) :
    t.isEnd = false := by
  cases kind : t.kind <;> simp_all [Literal.ofToken?, Token.isEnd]

theorem reads_primary? (h : ReadsForms below) :
    (primary? below).Reads (ifAny Expression.written) := by
  refine reads_production fun c result d input run => ?_
  rw [current_bind] at run
  cases literal : Literal.ofToken? c.current with
  | some value =>
    rw [literal] at run
    obtain ⟨_, e, moved, result⟩ := bind_ok.mp run
    obtain ⟨rfl, rfl⟩ := pure_ok.mp result
    exact reads_of_advance input (isEnd_of_literal literal) ⟨_, rfl, literal⟩ moved
  | none =>
    rw [literal] at run
    obtain ⟨taken, e, function, run₁⟩ := bind_ok.mp run
    cases taken with
    | true =>
      obtain ⟨value, f, body, result⟩ := bind_ok.mp run₁
      obtain ⟨rfl, rfl⟩ := pure_ok.mp result
      have opening := reads_of_takes input function
      exact opening.mul (reads_functionBody h opening.input body)
    | false =>
      obtain rfl := eq_of_takes_false function
      simp only [Bool.false_eq_true, if_false, get_bind] at run₁
      split at run₁
      · obtain ⟨fields, f, inside, result⟩ := bind_ok.mp run₁
        obtain ⟨rfl, rfl⟩ := pure_ok.mp result
        exact h .table input inside
      · exact h .suffixed input run₁

theorem accepts_of_isOperatorKind {t : Token} (h : isOperatorKind t.kind) :
    (Pattern.text t.text).accepts t := by
  simp only [isOperatorKind, Bool.or_eq_true, beq_iff_eq] at h
  rcases h with kind | kind <;> simp [Pattern.accepts, kind, Pattern.isFreelySpelled]

theorem accepts_of_unaryOperator? {t : Token} {operator : UnaryOperator}
    (h : unaryOperator? t = some operator) : (Pattern.text operator.text).accepts t := by
  unfold unaryOperator? at h
  split at h
  · next kind =>
    have text : operator.text = t.text := by simpa using List.find?_some h
    exact text ▸ accepts_of_isOperatorKind kind
  · cases h

theorem accepts_of_binaryOperator? {t : Token} {operator : BinaryOperator}
    (h : binaryOperator? t = some operator) : (Pattern.text operator.text).accepts t := by
  unfold binaryOperator? at h
  split at h
  · next kind =>
    have text : operator.text = t.text := by simpa using List.find?_some h
    exact text ▸ accepts_of_isOperatorKind kind
  · cases h

theorem reads_prefixed? (h : ReadsForms below) :
    (prefixed? below).Reads (ifAny Expression.written) := by
  intro c result d input run
  rw [prefixed?, current_bind] at run
  cases found : unaryOperator? c.current with
  | some operator =>
    rw [found] at run
    obtain ⟨_, e, moved, run₁⟩ := bind_ok.mp run
    obtain ⟨inner, f, ofOperand, result⟩ := bind_ok.mp run₁
    obtain ⟨rfl, rfl⟩ := pure_ok.mp result
    have accepted := accepts_of_unaryOperator? found
    have opening := reads_of_advance input (isEnd_of_accepts accepted) (mem_word.mpr accepted) moved
    exact opening.mul (reads_required (h (.operand _)) opening.input ofOperand)
  | none =>
    rw [found] at run
    exact reads_primary? h input run

theorem extends_joined? (h : ReadsForms below) (limit : Nat) :
    Extends (joined? below limit) Expression.written := by
  intro left c result d input run
  rw [joined?, current_bind] at run
  cases found : binaryOperator? c.current with
  | some operator =>
    simp only [found] at run
    split at run
    · obtain ⟨rfl, rfl⟩ := pure_ok.mp run
      exact .refl input
    · obtain ⟨_, e, moved, run₁⟩ := bind_ok.mp run
      obtain ⟨right, f, ofOperand, result⟩ := bind_ok.mp run₁
      obtain ⟨rfl, rfl⟩ := pure_ok.mp result
      have accepted := accepts_of_binaryOperator? found
      have opening := reads_of_advance input (isEnd_of_accepts accepted) (mem_word.mpr accepted)
        moved
      refine ⟨word operator.text * right.written, by simp, ?_, ?_⟩
      · rw [Expression.written, mul_assoc]
      · exact opening.mul (reads_required (h (.operand _)) opening.input ofOperand)
  | none =>
    rw [found] at run
    obtain ⟨rfl, rfl⟩ := pure_ok.mp run
    exact .refl input

theorem reads_operand (h : ReadsForms below) (limit : Nat) :
    (operand below limit).Reads (ifAny Expression.written) := by
  intro c result d input run
  obtain ⟨left, e, ofLeft, run₁⟩ := bind_ok.mp run
  have head := reads_prefixed? h input ofLeft
  cases left with
  | some left =>
    obtain ⟨whole, f, grown, result⟩ := bind_ok.mp run₁
    obtain ⟨rfl, rfl⟩ := pure_ok.mp result
    obtain ⟨m, same, reads⟩ := reads_grow (extends_joined? h limit) head.input grown
    change c.Reads whole.written _
    rw [same]
    exact head.mul reads
  | none =>
    obtain ⟨rfl, rfl⟩ := pure_ok.mp run₁
    exact head

end LuaFrontend.Grammar
