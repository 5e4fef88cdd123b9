import LuaFrontend.Grammar.Chunk
import LuaFrontend.Proofs.ExpressionReading

set_option autoImplicit false

namespace LuaFrontend.Grammar

open LuaFrontend.Parser
open Outcome (IsInput)

variable {below : Below} {c d : Cursor}

/-- A statement that is a `return`, or that is none. -/
def writtenIf (returns : Bool) (s : Statement) : Language Token :=
  {tokens | tokens ∈ s.written ∧ s.isReturn = returns}

abbrev writtenInside : Statement → Language Token := writtenIf false

theorem reads_inside {s : Statement} (h : c.Reads s.written d) (other : s.isReturn = false) :
    c.Reads (writtenInside s) d :=
  h.mono fun _ member => ⟨member, other⟩

theorem accepts_of_isWord {t : Token} {text : String} (h : t.isWord text) :
    (Pattern.text text).accepts t := by
  simp only [Token.isWord, Token.isKeyword, Bool.and_eq_true, beq_iff_eq] at h
  simp [Pattern.accepts, Pattern.isFreelySpelled, h]

/-- What the heading says about the first token. -/
theorem heading_cases (t : Token) :
    Heading.ofToken t = .assignmentOrCall ∨
    ((t.text, Heading.ofToken t) ∈ headings ∧ t.kind = .keyword) ∨
    (Heading.ofToken t = .label ∧ t.kind = .symbol ∧ t.text = "::") ∨
    (Heading.ofToken t = .gotoName ∧ t.kind = .identifier ∧ t.text = "goto") := by
  unfold Heading.ofToken
  split
  · next keyword =>
    cases found : headings.lookup t.text with
    | some heading =>
      obtain ⟨front, back, same, -⟩ := List.lookup_eq_some_iff.mp found
      exact .inr (.inl ⟨by simp [same], keyword⟩)
    | none => exact .inl rfl
  · next symbol => split <;> simp [*]
  · next name => split <;> simp [*]
  · exact .inl rfl

/-- A heading of the list stands for its word. -/
theorem isWord_of_heading {t : Token} {text : String} (h : (text, Heading.ofToken t) ∈ headings) :
    t.isWord text := by
  have once : ∀ entry ∈ headings, ∀ other ∈ headings, entry.2 = other.2 → entry.1 = other.1 := by
    decide
  rcases heading_cases t with other | ⟨entry, keyword⟩ | ⟨other, -⟩ | ⟨other, -⟩
  · simp [other, headings] at h
  · have same : text = t.text := once _ h _ entry rfl
    simp [Token.isWord, Token.isKeyword, keyword, same]
  · simp [other, headings] at h
  · simp [other, headings] at h

theorem accepts_of_label {t : Token} (h : Heading.ofToken t = .label) :
    (Pattern.text "::").accepts t := by
  rcases heading_cases t with other | ⟨entry, -⟩ | ⟨-, symbol, text⟩ | ⟨other, -⟩
  · simp [h] at other
  · simp [h, headings] at entry
  · simp [Pattern.accepts, symbol, text, Pattern.isFreelySpelled]
  · simp [h] at other

theorem text_of_gotoName {t : Token} (h : Heading.ofToken t = .gotoName) :
    t.text = "goto" ∧ t.kind = .identifier := by
  rcases heading_cases t with other | ⟨entry, -⟩ | ⟨other, -⟩ | ⟨-, name, text⟩
  · simp [h] at other
  · simp [h, headings] at entry
  · simp [h] at other
  · exact ⟨text, name⟩

theorem reads_word {text : String} {u : Unit} (input : IsInput c.upcoming)
    (begins : c.current.isWord text) (run : (liftM Cursor.advance : Parser Unit) c = .ok u d) :
    c.Reads (word text) d :=
  have accepted := accepts_of_isWord begins
  reads_of_advance input (isEnd_of_accepts accepted) (mem_word.mpr accepted) run

theorem reads_localDeclaration (h : ReadsForms below) :
    (localDeclaration below).ReadsFrom (·.isWord "local") writtenInside := by
  refine readsFrom_production fun c s d input begins run => ?_
  obtain ⟨_, e, moved, run₁⟩ := bind_ok.mp run
  obtain ⟨taken, f, function, run₂⟩ := bind_ok.mp run₁
  have first := reads_word input begins moved
  cases taken with
  | true =>
    obtain ⟨name, g, named, run₃⟩ := bind_ok.mp run₂
    obtain ⟨value, k, body, result⟩ := bind_ok.mp run₃
    obtain ⟨rfl, rfl⟩ := pure_ok.mp result
    have toFunction := first.mul (reads_of_takes first.input function)
    have toName := toFunction.mul (reads_identifier toFunction.input named)
    refine reads_inside ?_ rfl
    exact toName.mul (reads_functionBody h toName.input body)
  | false =>
    obtain rfl := eq_of_takes_false function
    obtain ⟨names, g, named, run₃⟩ := bind_ok.mp run₂
    obtain ⟨values, k, assigned, result⟩ := bind_ok.mp run₃
    obtain ⟨rfl, rfl⟩ := pure_ok.mp result
    have toNames := first.mul (reads_commaSeparated reads_identifier first.input named)
    have reads := toNames.mul (reads_behind (reads_expressionList h) toNames.input assigned)
    refine reads_inside ?_ rfl
    cases values with
    | none => exact reads
    | some values =>
      obtain ⟨_, -, ofValues⟩ := behind_some.mp assigned
      have some : values.isEmpty = false := by simpa using ne_nil_of_commaSeparated ofValues
      simp only [Statement.written, Option.getD_some, some]
      exact reads

/-- A condition and its block have been read behind their word. -/
theorem reads_clause (h : ReadsForms below) (text : String) :
    (clause below).ReadsFrom (·.isWord text) (word text * ·.written) := by
  intro c value d input begins run
  obtain ⟨_, e, moved, run₁⟩ := bind_ok.mp run
  obtain ⟨condition, f, ofCondition, run₂⟩ := bind_ok.mp run₁
  obtain ⟨_, g, thenWord, run₃⟩ := bind_ok.mp run₂
  obtain ⟨block, k, inside, result⟩ := bind_ok.mp run₃
  obtain ⟨rfl, rfl⟩ := pure_ok.mp result
  have first := reads_word input begins moved
  have toCondition := reads_expression h first.input ofCondition
  have toThen := toCondition.mul (reads_of_expect toCondition.input thenWord)
  exact first.mul (toThen.mul (h .block toThen.input inside))

theorem reads_elseClause? (h : ReadsForms below) :
    (elseClause? below).Reads (ifAny (word "elseif" * ·.written)) := by
  intro c result d input run
  rw [elseClause?, current_bind] at run
  split at run
  · next begins =>
    obtain ⟨value, e, ofClause, result⟩ := bind_ok.mp run
    obtain ⟨rfl, rfl⟩ := pure_ok.mp result
    exact reads_clause h "elseif" input begins ofClause
  · obtain ⟨rfl, rfl⟩ := pure_ok.mp run
    exact .refl input

theorem shrinks_elseClause? (h : ReadsForms below) : Shrinks (elseClause? below) :=
  shrinks_of_reads (reads_elseClause? h) fun _ => by simp

theorem reads_conditional (h : ReadsForms below) :
    (conditional below).ReadsFrom (·.isWord "if") writtenInside := by
  refine readsFrom_production fun c s d input begins run => ?_
  obtain ⟨first, e, ofFirst, run₁⟩ := bind_ok.mp run
  obtain ⟨others, f, ofOthers, run₂⟩ := bind_ok.mp run₁
  obtain ⟨otherwise, g, ofElse, run₃⟩ := bind_ok.mp run₂
  obtain ⟨_, k, closing, result⟩ := bind_ok.mp run₃
  obtain ⟨rfl, rfl⟩ := pure_ok.mp result
  have toFirst := reads_clause h "if" input begins ofFirst
  have toOthers := toFirst.mul (reads_many (reads_elseClause? h) toFirst.input ofOthers)
  have toElse := toOthers.mul (reads_behind (h .block) toOthers.input ofElse)
  have reads := toElse.mul (reads_of_expect toElse.input closing)
  refine reads_inside ?_ rfl
  simp only [Statement.written, Clause.writtenEach_eq, List.map_cons, separatedBy, List.map_map,
    ← mul_assoc]
  cases otherwise <;> exact reads

theorem reads_functionStatement (h : ReadsForms below) :
    (functionStatement below).ReadsFrom (·.isWord "function") writtenInside := by
  refine readsFrom_production fun c s d input begins run => ?_
  obtain ⟨_, e, moved, run₁⟩ := bind_ok.mp run
  obtain ⟨root, f, ofRoot, run₂⟩ := bind_ok.mp run₁
  obtain ⟨fields, g, ofFields, run₃⟩ := bind_ok.mp run₂
  obtain ⟨method, k, ofMethod, run₄⟩ := bind_ok.mp run₃
  obtain ⟨value, l, body, result⟩ := bind_ok.mp run₄
  obtain ⟨rfl, rfl⟩ := pure_ok.mp result
  have first := reads_word input begins moved
  have toRoot := reads_identifier first.input ofRoot
  have toFields := toRoot.mul (reads_many (reads_behind reads_identifier) toRoot.input ofFields)
  have toMethod := toFields.mul (reads_behind reads_identifier toFields.input ofMethod)
  have reads := (first.mul toMethod).mul (reads_functionBody h toMethod.input body)
  refine reads_inside ?_ rfl
  cases method <;> exact reads

theorem reads_enclosedBlock (h : ReadsForms below) :
    (enclosedBlock below).Reads (word "do" * Statement.writtenAll · * word "end") := by
  intro c block d input run
  obtain ⟨_, e, left, run₁⟩ := bind_ok.mp run
  obtain ⟨inner, f, inside, run₂⟩ := bind_ok.mp run₁
  obtain ⟨_, g, right, result⟩ := bind_ok.mp run₂
  obtain ⟨rfl, rfl⟩ := pure_ok.mp result
  have opening := reads_of_expect input left
  have body := opening.mul (h .block opening.input inside)
  exact body.mul (reads_of_expect body.input right)

theorem reads_whileLoop (h : ReadsForms below) :
    (whileLoop below).ReadsFrom (·.isWord "while") writtenInside := by
  refine readsFrom_production fun c s d input begins run => ?_
  obtain ⟨_, e, moved, run₁⟩ := bind_ok.mp run
  obtain ⟨condition, f, ofCondition, run₂⟩ := bind_ok.mp run₁
  obtain ⟨block, g, ofBlock, result⟩ := bind_ok.mp run₂
  obtain ⟨rfl, rfl⟩ := pure_ok.mp result
  have first := reads_word input begins moved
  have toCondition := first.mul (reads_expression h first.input ofCondition)
  refine reads_inside ?_ rfl
  exact toCondition.mul (reads_enclosedBlock h toCondition.input ofBlock)

theorem reads_forLoop (h : ReadsForms below) :
    (forLoop below).ReadsFrom (·.isWord "for") writtenInside := by
  refine readsFrom_production fun c s d input begins run => ?_
  obtain ⟨_, e, moved, run₁⟩ := bind_ok.mp run
  obtain ⟨counter, f, named, run₂⟩ := bind_ok.mp run₁
  obtain ⟨numeric, g, sign, run₃⟩ := bind_ok.mp run₂
  have opening := reads_word input begins moved
  have toCounter := reads_identifier opening.input named
  have start := opening.mul toCounter
  cases numeric with
  | true =>
    obtain ⟨first, k, ofFirst, run₄⟩ := bind_ok.mp run₃
    obtain ⟨_, l, comma, run₅⟩ := bind_ok.mp run₄
    obtain ⟨last, m, ofLast, run₆⟩ := bind_ok.mp run₅
    obtain ⟨step, n, ofStep, run₇⟩ := bind_ok.mp run₆
    obtain ⟨block, o, ofBlock, result⟩ := bind_ok.mp run₇
    obtain ⟨rfl, rfl⟩ := pure_ok.mp result
    have toSign := start.mul (reads_of_takes start.input sign)
    have toFirst := toSign.mul (reads_expression h toSign.input ofFirst)
    have toComma := toFirst.mul (reads_of_expect toFirst.input comma)
    have toLast := toComma.mul (reads_expression h toComma.input ofLast)
    have toStep := toLast.mul (reads_behind (reads_expression h) toLast.input ofStep)
    have reads := toStep.mul (reads_enclosedBlock h toStep.input ofBlock)
    refine reads_inside ?_ rfl
    cases step <;> exact reads
  | false =>
    obtain rfl := eq_of_takes_false sign
    obtain ⟨others, k, ofOthers, run₄⟩ := bind_ok.mp run₃
    obtain ⟨_, l, inWord, run₅⟩ := bind_ok.mp run₄
    obtain ⟨iterators, m, ofIterators, run₆⟩ := bind_ok.mp run₅
    obtain ⟨block, n, ofBlock, result⟩ := bind_ok.mp run₆
    obtain ⟨rfl, rfl⟩ := pure_ok.mp result
    have toNames := toCounter.mul
      (reads_many (reads_behind reads_identifier) toCounter.input ofOthers)
    have toIn := (opening.mul toNames).mul (reads_of_expect toNames.input inWord)
    have toIterators := toIn.mul (reads_expressionList h toIn.input ofIterators)
    have reads := toIterators.mul (reads_enclosedBlock h toIterators.input ofBlock)
    refine reads_inside ?_ rfl
    simp only [Statement.written, List.map_cons, separatedBy, List.map_map]
    exact reads

theorem reads_repeatLoop (h : ReadsForms below) :
    (repeatLoop below).ReadsFrom (·.isWord "repeat") writtenInside := by
  refine readsFrom_production fun c s d input begins run => ?_
  obtain ⟨_, e, moved, run₁⟩ := bind_ok.mp run
  obtain ⟨block, f, ofBlock, run₂⟩ := bind_ok.mp run₁
  obtain ⟨_, g, untilWord, run₃⟩ := bind_ok.mp run₂
  obtain ⟨condition, k, ofCondition, result⟩ := bind_ok.mp run₃
  obtain ⟨rfl, rfl⟩ := pure_ok.mp result
  have opening := reads_word input begins moved
  have toBlock := opening.mul (h .block opening.input ofBlock)
  have toUntil := toBlock.mul (reads_of_expect toBlock.input untilWord)
  refine reads_inside ?_ rfl
  exact toUntil.mul (reads_expression h toUntil.input ofCondition)

theorem reads_doBlock (h : ReadsForms below) : (doBlock below).Reads writtenInside := by
  refine reads_production fun c s d input run => ?_
  obtain ⟨block, e, ofBlock, result⟩ := bind_ok.mp run
  obtain ⟨rfl, rfl⟩ := pure_ok.mp result
  refine reads_inside ?_ rfl
  exact reads_enclosedBlock h input ofBlock

theorem reads_goto : goto.ReadsFrom
    (fun t => t.text = "goto" ∧ (t.kind = .keyword ∨ t.kind = .identifier)) writtenInside := by
  refine readsFrom_production fun c s d input begins run => ?_
  obtain ⟨_, e, moved, run₁⟩ := bind_ok.mp run
  obtain ⟨label, f, named, result⟩ := bind_ok.mp run₁
  obtain ⟨rfl, rfl⟩ := pure_ok.mp result
  have other : c.current.isEnd = false := by
    rcases begins.2 with kind | kind <;> simp [Token.isEnd, kind]
  have opening : c.Reads gotoWord e := reads_of_advance input other ⟨_, rfl, begins⟩ moved
  refine reads_inside ?_ rfl
  exact opening.mul (reads_identifier opening.input named)

theorem reads_label : label.ReadsFrom (fun t => (Pattern.text "::").accepts t) writtenInside := by
  refine readsFrom_production fun c s d input begins run => ?_
  obtain ⟨_, e, moved, run₁⟩ := bind_ok.mp run
  obtain ⟨name, f, named, run₂⟩ := bind_ok.mp run₁
  obtain ⟨_, g, closing, result⟩ := bind_ok.mp run₂
  obtain ⟨rfl, rfl⟩ := pure_ok.mp result
  have opening := reads_of_advance input (isEnd_of_accepts begins) (mem_word.mpr begins) moved
  have toName := opening.mul (reads_identifier opening.input named)
  refine reads_inside ?_ rfl
  exact toName.mul (reads_of_expect toName.input closing)

theorem reads_target (h : ReadsForms below) : (target below).Reads Expression.written := by
  intro c value d input run
  obtain ⟨result, e, suffixed, run₁⟩ := bind_ok.mp run
  cases result with
  | some value =>
    obtain ⟨rfl, rfl⟩ := pure_ok.mp run₁
    exact h .suffixed input suffixed
  | none => exact (not_unexpected_ok run₁).elim

theorem reads_assignmentOrCall (h : ReadsForms below) :
    (assignmentOrCall below).Reads writtenInside := by
  refine reads_production fun c s d input run => ?_
  obtain ⟨first, e, ofFirst, run₁⟩ := bind_ok.mp run
  have toFirst := reads_target h input ofFirst
  rw [get_bind] at run₁
  split at run₁
  · obtain ⟨others, f, ofOthers, run₂⟩ := bind_ok.mp run₁
    have toOthers := toFirst.mul (reads_many (reads_behind (reads_target h)) toFirst.input ofOthers)
    split at run₂
    · obtain ⟨_, g, sign, run₃⟩ := bind_ok.mp run₂
      obtain ⟨values, k, ofValues, result⟩ := bind_ok.mp run₃
      obtain ⟨rfl, rfl⟩ := pure_ok.mp result
      have toSign := toOthers.mul (reads_of_expect toOthers.input sign)
      have reads := toSign.mul (reads_expressionList h toSign.input ofValues)
      refine reads_inside ?_ rfl
      simp only [Statement.written, Expression.writtenEach_eq, List.map_cons, separatedBy,
        List.map_map] at reads ⊢
      exact reads
    · exact (not_unexpected_ok run₂).elim
  · split at run₁
    · obtain ⟨rfl, rfl⟩ := pure_ok.mp run₁
      exact reads_inside toFirst rfl
    · exact (not_unexpected_ok run₁).elim

theorem isJump_ok {jump : Bool} (run : isJump c = .ok jump d) : c.Passes [] d := by
  rw [isJump, get_bind] at run
  split at run
  · obtain ⟨t, e, following, result⟩ := bind_ok.mp (liftM_ok.mp run)
    obtain ⟨-, rfl⟩ := pure_ok.mp result
    exact Cursor.passes_of_next following
  · obtain ⟨-, rfl⟩ := pure_ok.mp run
    exact .refl _

theorem reads_statement (h : ReadsForms below) : (statement below).Reads writtenInside := by
  refine reads_production fun c s d input run => ?_
  rw [current_bind] at run
  have word (text : String) (heading : Heading) (same : Heading.ofToken c.current = heading)
      (listed : (text, heading) ∈ headings) : c.current.isWord text :=
    isWord_of_heading (same ▸ listed)
  cases heading : Heading.ofToken c.current with
  | localDeclaration =>
    rw [heading] at run
    exact reads_localDeclaration h input (word _ _ heading (by decide)) run
  | conditional =>
    rw [heading] at run
    exact reads_conditional h input (word _ _ heading (by decide)) run
  | function =>
    rw [heading] at run
    exact reads_functionStatement h input (word _ _ heading (by decide)) run
  | whileLoop =>
    rw [heading] at run
    exact reads_whileLoop h input (word _ _ heading (by decide)) run
  | forLoop =>
    rw [heading] at run
    exact reads_forLoop h input (word _ _ heading (by decide)) run
  | repeatLoop =>
    rw [heading] at run
    exact reads_repeatLoop h input (word _ _ heading (by decide)) run
  | doBlock =>
    rw [heading] at run
    exact reads_doBlock h input run
  | goto =>
    rw [heading] at run
    have begins := word "goto" _ heading (by decide)
    simp only [Token.isWord, Token.isKeyword, Bool.and_eq_true, beq_iff_eq] at begins
    exact reads_goto input ⟨begins.2, .inl begins.1⟩ run
  | breakLoop =>
    rw [heading] at run
    obtain ⟨_, e, moved, result⟩ := bind_ok.mp run
    obtain ⟨rfl, rfl⟩ := pure_ok.mp result
    exact reads_inside (reads_word input (word "break" _ heading (by decide)) moved) rfl
  | label =>
    rw [heading] at run
    exact reads_label input (accepts_of_label heading) run
  | gotoName =>
    rw [heading] at run
    obtain ⟨jump, e, ahead, run₁⟩ := bind_ok.mp run
    have passes := isJump_ok ahead
    have begins := text_of_gotoName heading
    refine .behind passes ?_
    cases jump with
    | true =>
      rw [← passes.current_eq] at begins
      exact reads_goto (passes.input input) ⟨begins.1, .inr begins.2⟩ run₁
    | false => exact reads_assignmentOrCall h (passes.input input) run₁
  | assignmentOrCall =>
    rw [heading] at run
    exact reads_assignmentOrCall h input run

theorem reads_returnedValues (h : ReadsForms below) : (returnedValues below).Reads
    fun values => separatedBy (word ",") (Expression.writtenEach values) := by
  intro c values d input run
  rw [returnedValues, current_bind, get_bind] at run
  split at run
  · exact reads_expressionList h input run
  · obtain ⟨rfl, rfl⟩ := pure_ok.mp run
    exact .refl input

theorem reads_returning (h : ReadsForms below) : (returning below).ReadsFrom (·.isWord "return")
    (writtenIf true) := by
  refine readsFrom_production fun c s d input begins run => ?_
  obtain ⟨_, e, moved, run₁⟩ := bind_ok.mp run
  obtain ⟨values, f, ofValues, run₂⟩ := bind_ok.mp run₁
  obtain ⟨_, g, semicolon, result⟩ := bind_ok.mp run₂
  obtain ⟨rfl, rfl⟩ := pure_ok.mp result
  obtain ⟨taken, sign⟩ := discard_ok.mp semicolon
  have opening := reads_word input begins moved
  have toValues := opening.mul (reads_returnedValues h opening.input ofValues)
  have last : f.Reads (1 + word ";") d := by
    cases taken with
    | true => exact (reads_of_takes toValues.input sign).right
    | false =>
      obtain rfl := eq_of_takes_false sign
      exact .left (.refl toValues.input)
  exact (toValues.mul last).mono fun _ member => ⟨member, rfl⟩

theorem mem_semicolons {count : List Unit} {tokens : List Token}
    (h : tokens ∈ (count.map fun _ => word ";").prod) : tokens ∈ semicolons := by
  induction count generalizing tokens with
  | nil =>
    obtain rfl := h
    exact Language.nil_mem_kstar _
  | cons _ count ih =>
    rw [List.map_cons, List.prod_cons] at h
    obtain ⟨first, isFirst, others, isOthers, rfl⟩ := Language.mem_mul.mp h
    rw [semicolons, ← Language.one_add_self_mul_kstar_eq_kstar]
    exact .inr (Language.append_mem_mul isFirst (ih isOthers))

theorem reads_nothing : (pure () : Parser Unit).Reads fun _ => 1 := by
  intro c _ d input run
  obtain ⟨-, rfl⟩ := pure_ok.mp run
  exact .refl input

/-- Semicolons come first, whether a statement follows or not. -/
theorem reads_statement? (h : ReadsForms below) :
    (statement? below).Reads (·.elim semicolons (semicolons * writtenInside ·)) := by
  intro c result d input run
  obtain ⟨_, e, skipped, run₁⟩ := bind_ok.mp run
  obtain ⟨count, empty⟩ := discard_ok.mp skipped
  have first := (reads_many (reads_behind reads_nothing) input empty).mono fun _ member =>
    mem_semicolons (mul_one (word ";") ▸ member)
  rw [current_bind] at run₁
  split at run₁
  · obtain ⟨s, f, ofStatement, result⟩ := bind_ok.mp run₁
    obtain ⟨rfl, rfl⟩ := pure_ok.mp result
    exact first.mul (reads_statement h first.input ofStatement)
  · obtain ⟨rfl, rfl⟩ := pure_ok.mp run₁
    exact first

theorem shrinks_statement? (h : ReadsForms below) : Shrinks (statement? below) := by
  intro c s d input run
  have reads := reads_statement? h input run
  refine ⟨reads.input, reads.length_lt fun empty => ?_⟩
  have inside := (nil_mem_mul.mp empty).2
  exact s.nil_mem_written.mp inside.1

/-- Statements without a `return`, and what stands behind them. -/
theorem writtenAll_append (front back : List Statement) {tokens : List Token}
    (h : tokens ∈ (front.map (semicolons * writtenInside ·)).prod * Statement.writtenAll back) :
    tokens ∈ Statement.writtenAll (front ++ back) := by
  induction front generalizing tokens with
  | nil => simpa using h
  | cons s front ih =>
    rw [List.map_cons, List.prod_cons, mul_assoc, mul_assoc] at h
    obtain ⟨signs, isSigns, rest, isRest, rfl⟩ := Language.mem_mul.mp h
    obtain ⟨first, ⟨isFirst, other⟩, others, isOthers, rfl⟩ := Language.mem_mul.mp isRest
    rw [List.cons_append, Statement.writtenAll, other, ← List.append_assoc]
    exact Language.append_mem_mul (Language.append_mem_mul isSigns isFirst) (ih isOthers)

/-- A block that ends in a `return`. -/
theorem writtenAll_returning {s : Statement} {tokens : List Token}
    (h : tokens ∈ semicolons * writtenIf true s) :
    tokens ∈ Statement.writtenAll [s] := by
  obtain ⟨signs, isSigns, last, ⟨isLast, returns⟩, rfl⟩ := Language.mem_mul.mp h
  rw [Statement.writtenAll, if_pos returns]
  exact (mul_one (semicolons * s.written)).symm ▸ Language.append_mem_mul isSigns isLast

theorem reads_block (h : ReadsForms below) : (block below).Reads (writtenForm .block) := by
  refine reads_production fun c statements d input run => ?_
  obtain ⟨front, e, ofFront, run₁⟩ := bind_ok.mp run
  have toFront := reads_many_last (reads_statement? h) (Language.nil_mem_kstar _) input ofFront
  rw [current_bind] at run₁
  split at run₁
  · next begins =>
    obtain ⟨last, f, ofReturn, result⟩ := bind_ok.mp run₁
    obtain ⟨rfl, rfl⟩ := pure_ok.mp result
    refine (toFront.mul (reads_returning h toFront.input begins ofReturn)).mono fun tokens member =>
      writtenAll_append front [last] ?_
    simp only [mul_assoc] at member
    obtain ⟨inside, isInside, ends, isEnds, rfl⟩ := Language.mem_mul.mp member
    exact Language.append_mem_mul isInside (writtenAll_returning isEnds)
  · obtain ⟨rfl, rfl⟩ := pure_ok.mp run₁
    exact toFront.mono fun tokens member =>
      List.append_nil statements ▸ writtenAll_append statements [] member

theorem reads_rule (h : ReadsForms below) : ReadsForms (rule below)
  | .block => reads_block h
  | .operand limit => reads_operand h limit
  | .suffixed => reads_suffixed h
  | .table => reads_table h
  | .arguments => reads_arguments h

/-- At every level, what a form gives has been read. -/
theorem reads_levels (depth : Nat) : ReadsForms (levels depth) := by
  induction depth with
  | zero => exact fun _ _ _ _ _ run => (not_failHere_ok run).elim
  | succ depth ih => exact reads_rule ih

end LuaFrontend.Grammar
