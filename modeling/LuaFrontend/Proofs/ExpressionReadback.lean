import LuaFrontend.Proofs.LeadingWords

set_option autoImplicit false

namespace LuaFrontend

open LuaFrontend.Grammar
open LuaFrontend.Parser

variable (dialect : Dialect)

/-- Where the expression stands, operators that bind tighter than the limit are read with it, and
reading goes on from there. -/
def Expression.ReadsBack (e : Expression) : Prop :=
  ∀ ⦃n limit w rest left⦄ ⦃good : Expression → Prop⦄, e.IsProper dialect → e.inside ≤ n →
    e.above limit → e.StopsAt w →
    (∀ read, Alike Expression.mapSpans e read →
      Goes dialect (grow (joined? (Grammar.levels n) limit) read) (w :: rest) left good) →
    Goes dialect (operand (Grammar.levels n) limit) (e.words dialect ++ w :: rest) left
      (Present good)

/-- Where the expression stands, it is read as what suffixes may follow, and reading goes on from
there. -/
def Expression.ReadsBackSuffixed (e : Expression) : Prop :=
  ∀ ⦃n rest left⦄ ⦃good : Expression → Prop⦄, e.IsProper dialect → e.chain ≤ n →
    (∀ read, Alike Expression.mapSpans e read →
      Goes dialect (grow (suffix? (Grammar.levels n)) read) rest left good) →
    Goes dialect (suffixed (Grammar.levels n)) (e.words dialect ++ rest) left (Present good)

def Arguments.ReadsBack (arguments : Arguments) : Prop :=
  ∀ ⦃n rest⦄, arguments.IsProper dialect → arguments.levels ≤ n →
    Goes dialect (callArguments? (Grammar.levels n)) (arguments.words dialect ++ rest) rest
      (Present (Alike Arguments.mapSpans arguments))

def TableField.ReadsBack (f : TableField) : Prop :=
  ∀ ⦃n w rest⦄, f.IsProper dialect → f.levels ≤ n → w.closes → w.isText "=" = false →
    Goes dialect (field? (Grammar.levels n)) (f.words dialect ++ w :: rest) (w :: rest)
      (Present (Alike TableField.mapSpans f))

def FunctionBody.ReadsBack (value : FunctionBody) : Prop :=
  ∀ ⦃n rest⦄, value.IsProper dialect → value.levels ≤ n →
    Goes dialect (functionBody (Grammar.levels n)) (value.words dialect ++ rest) rest
      (Alike FunctionBody.mapSpans value)

/-- The block is read up to the word that ends it. -/
def Block.ReadsBack (block : Block) : Prop :=
  ∀ ⦃n w rest⦄, Statement.IsProperAll dialect block → block.levels ≤ n → w.closesBlock →
    Goes dialect (Grammar.levels n .block) (Statement.wordsAll dialect block ++ w :: rest)
      (w :: rest) (Alike Statement.mapSpansAll block)

variable {dialect} {w : Word} {rest : List Word} {n : Nat}

theorem alike_identifier {id read : Identifier} (h : read.name = id.name) :
    Alike Identifier.mapSpan id read := by
  simp [Alike, Identifier.mapSpan, h]

theorem Alike.list {α : Type} {map : (Span → Span) → α → α} {first second : List α}
    (h : List.Forall₂ (Alike map) first second) :
    Alike (fun f => List.map (map f)) first second :=
  map_eq_map_of_forall₂ h

theorem alike_expressions {first second : List Expression}
    (h : List.Forall₂ (Alike Expression.mapSpans) first second) :
    Alike Expression.mapSpansAll first second := by
  simp only [Alike, Expression.mapSpansAll_eq]
  exact Alike.list h

theorem alike_fields {first second : List TableField}
    (h : List.Forall₂ (Alike TableField.mapSpans) first second) :
    Alike TableField.mapSpansAll first second := by
  simp only [Alike, TableField.mapSpansAll_eq]
  exact Alike.list h

section Ends

theorem goes_callArguments?_end (below : Below) (h : w.isSuffix = false) :
    Goes dialect (callArguments? below) (w :: rest) (w :: rest) (· = none) := by
  simp only [Word.isSuffix, Bool.or_eq_false_iff, beq_eq_false_iff_ne] at h
  obtain ⟨⟨⟨-, noList⟩, noTable⟩, noString⟩ := h
  refine goes_current fun start => (goes_takes_other noList).no ?_
  refine goes_get fun c offers => ?_
  rw [offers.hasText, noTable, if_neg Bool.false_ne_true]
  rw [if_neg (show (w.token start).kind ≠ .string from noString)]
  exact goes_pure rfl

theorem goes_suffix?_end (below : Below) (base : Expression) (h : w.isSuffix = false) :
    Goes dialect (suffix? below base) (w :: rest) (w :: rest) (· = none) := by
  have suffixes := h
  simp only [Word.isSuffix, Bool.or_eq_false_iff] at suffixes
  obtain ⟨⟨⟨⟨⟨noIndex, noField⟩, noMethod⟩, -⟩, -⟩, -⟩ := suffixes
  refine (goes_takes_other noIndex).no ((goes_takes_other noField).no
    ((goes_takes_other noMethod).no ?_))
  refine (goes_callArguments?_end below h).bind ?_
  rintro _ rfl
  exact goes_pure rfl

theorem goes_joined?_end (below : Below) {limit : Nat} (left : Expression)
    (h : ∀ operator ∈ w.binary?, operator.precedence ≤ limit) :
    Goes dialect (joined? below limit left) (w :: rest) (w :: rest) (· = none) := by
  refine goes_current fun start => ?_
  have same : binaryOperator? (w.token start) = w.binary? := rfl
  rw [same]
  cases found : w.binary? with
  | none => exact goes_pure rfl
  | some operator =>
    simp only [if_pos (h operator found)]
    exact goes_pure rfl

end Ends

section Loops

theorem shrinks_joined? (n limit : Nat) (left : Expression) :
    Shrinks (joined? (levels n) limit left) :=
  shrinks_of_extends (extends_joined? (reads_levels n) limit) left

theorem shrinks_suffix? (n : Nat) (base : Expression) : Shrinks (suffix? (levels n) base) :=
  shrinks_of_extends (extends_suffix? (reads_levels n)) base

theorem goes_expression? {e : Expression} (h : e.ReadsBack dialect) (proper : e.IsProper dialect)
    (room : 1 + e.inside ≤ n) (closes : w.closes) :
    Goes dialect (expression? (levels n)) (e.words dialect ++ w :: rest) (w :: rest)
      (Present (Alike Expression.mapSpans e)) := by
  cases n with
  | zero => omega
  | succ n =>
    refine goes_production ?_
    change Goes dialect (operand (levels n) 0) _ _ _
    refine h proper (by omega) e.above_zero (e.stopsAt_of_closes closes) fun read same => ?_
    refine goes_grow_end (shrinks_joined? n 0) same (goes_joined?_end _ _ ?_)
    simp [Word.binary?_of_closes closes]

theorem goes_expression {e : Expression} (h : e.ReadsBack dialect) (proper : e.IsProper dialect)
    (room : 1 + e.inside ≤ n) (closes : w.closes) :
    Goes dialect (expression (levels n)) (e.words dialect ++ w :: rest) (w :: rest)
      (Alike Expression.mapSpans e) :=
  goes_required (goes_expression? h proper room closes)

/-- An operand behind an operator, up to a word that goes on outside of it. -/
theorem goes_operand {e : Expression} {limit : Nat} (h : e.ReadsBack dialect)
    (proper : e.IsProper dialect) (room : 1 + e.inside ≤ n) (above : e.above limit)
    (stops : e.StopsAt w) (low : ∀ operator ∈ w.binary?, operator.precedence ≤ limit) :
    Goes dialect (required .expression (levels n (.operand limit)))
      (e.words dialect ++ w :: rest) (w :: rest) (Alike Expression.mapSpans e) := by
  cases n with
  | zero => omega
  | succ n =>
    refine goes_required ?_
    change Goes dialect (operand (levels n) limit) _ _ _
    refine h proper (by omega) above stops fun read same => ?_
    exact goes_grow_end (shrinks_joined? n limit) same (goes_joined?_end _ _ low)

theorem goes_suffixed {e : Expression} (h : e.ReadsBackSuffixed dialect)
    (proper : e.IsProper dialect) (room : 1 + e.chain ≤ n) (stop : w.isSuffix = false) :
    Goes dialect (levels n .suffixed) (e.words dialect ++ w :: rest) (w :: rest)
      (Present (Alike Expression.mapSpans e)) := by
  cases n with
  | zero => omega
  | succ n =>
    change Goes dialect (suffixed (levels n)) _ _ _
    refine h proper (by omega) fun read same => ?_
    exact goes_grow_end (shrinks_suffix? n) same (goes_suffix?_end _ _ stop)

end Loops

section Suffixes

theorem goes_suffixed_of_base {words middle left : List Word} {first good : Expression → Prop}
    (base : Goes dialect (base? (levels n)) words middle (Present first))
    (next : ∀ read, first read → Goes dialect (grow (suffix? (levels n)) read) middle left good) :
    Goes dialect (suffixed (levels n)) words left (Present good) := by
  refine goes_production (base.bind ?_)
  rintro _ ⟨read, rfl, same⟩
  exact (next read same).bind fun whole isGood => goes_pure ⟨whole, rfl, isGood⟩

theorem readsBackSuffixed_name (id : Identifier) :
    (Expression.name id).ReadsBackSuffixed dialect := by
  intro n rest left good _ _ next
  refine goes_suffixed_of_base (goes_current fun start => ?_) next
  rw [if_pos (show (id.word.token start).kind = .identifier from rfl)]
  refine (goes_identifier rfl).bind fun read same => goes_pure ⟨_, rfl, ?_⟩
  exact congrArg Expression.name (alike_identifier same)

theorem readsBackSuffixed_group {inner : Expression} (ofInner : inner.ReadsBack dialect) :
    (Expression.group inner).ReadsBackSuffixed dialect := by
  intro n rest left good proper room next
  have room : 1 + inner.inside ≤ n := room
  simp only [Expression.words, List.cons_append, List.append_assoc, List.nil_append]
  refine goes_suffixed_of_base (goes_current fun start => ?_) next
  refine (goes_takes rfl).yes ?_
  refine (goes_expression ofInner proper room rfl).bind fun read same => ?_
  refine (goes_expect rfl).bind fun _ _ => goes_pure ⟨_, rfl, ?_⟩
  exact congrArg Expression.group same

theorem readsBackSuffixed_index {base key : Expression}
    (ofBase : base.isSuffixable → base.ReadsBackSuffixed dialect) (ofKey : key.ReadsBack dialect) :
    (Expression.index base key).ReadsBackSuffixed dialect := by
  intro n rest left good ⟨suffixable, properBase, properKey⟩ room next
  have room : max base.chain (1 + key.inside) ≤ n := room
  simp only [Expression.words, List.cons_append, List.append_assoc, List.nil_append]
  refine ofBase suffixable properBase (by omega) fun read same => ?_
  refine goes_grow (shrinks_suffix? n) ((goes_takes rfl).yes ?_) next
  refine (goes_expression ofKey properKey (by omega) rfl).bind fun readKey sameKey => ?_
  refine (goes_expect rfl).bind fun _ _ => goes_pure ⟨_, rfl, ?_⟩
  exact congrArg₂ Expression.index same sameKey

theorem readsBackSuffixed_member {base : Expression}
    (ofBase : base.isSuffixable → base.ReadsBackSuffixed dialect) (field : Identifier) :
    (Expression.member base field).ReadsBackSuffixed dialect := by
  intro n rest left good ⟨suffixable, proper, _⟩ room next
  have room : base.chain ≤ n := room
  simp only [Expression.words, List.cons_append, List.append_assoc, List.nil_append]
  refine ofBase suffixable proper room fun read same => ?_
  refine goes_grow (shrinks_suffix? n) ((goes_takes_other rfl).no ((goes_takes rfl).yes ?_)) next
  refine (goes_identifier rfl).bind fun readField sameField => goes_pure ⟨_, rfl, ?_⟩
  exact congrArg₂ Expression.member same (alike_identifier sameField)

theorem readsBackSuffixed_call {callee : Expression} {arguments : Arguments}
    (ofCallee : callee.isSuffixable → callee.ReadsBackSuffixed dialect)
    (ofArguments : arguments.ReadsBack dialect) :
    (Expression.call callee arguments).ReadsBackSuffixed dialect := by
  intro n rest left good ⟨suffixable, properCallee, properArguments⟩ room next
  have room : max callee.chain arguments.levels ≤ n := room
  obtain ⟨w, others, head, -, noIndex, noField, noMethod⟩ :=
    Arguments.words_eq_cons properArguments
  have goes : Goes dialect (callArguments? (levels n)) (arguments.words dialect ++ rest) rest _ :=
    ofArguments properArguments (by omega)
  simp only [Expression.words, List.append_assoc]
  refine ofCallee suffixable properCallee (by omega) fun read same => ?_
  rw [head, List.cons_append] at goes ⊢
  refine goes_grow (shrinks_suffix? n) ((goes_takes_other noIndex).no ((goes_takes_other noField).no
    ((goes_takes_other noMethod).no (goes.bind ?_)))) next
  rintro _ ⟨readArguments, rfl, sameArguments⟩
  exact goes_pure ⟨_, rfl, congrArg₂ Expression.call same sameArguments⟩

theorem readsBackSuffixed_methodCall {object : Expression} {arguments : Arguments}
    (ofObject : object.isSuffixable → object.ReadsBackSuffixed dialect) (method : Identifier)
    (ofArguments : arguments.ReadsBack dialect) :
    (Expression.methodCall object method arguments).ReadsBackSuffixed dialect := by
  intro n rest left good ⟨suffixable, properObject, _, properArguments⟩ room next
  have room : max object.chain arguments.levels ≤ n := room
  simp only [Expression.words, List.cons_append, List.append_assoc]
  refine ofObject suffixable properObject (by omega) fun read same => ?_
  refine goes_grow (shrinks_suffix? n) ((goes_takes_other rfl).no ((goes_takes_other rfl).no
    ((goes_takes rfl).yes ?_))) next
  refine (goes_identifier rfl).bind fun readMethod sameMethod => ?_
  refine (goes_required (ofArguments properArguments (by omega))).bind
    fun readArguments sameArguments => goes_pure ⟨_, rfl, ?_⟩
  have sameMethod := alike_identifier sameMethod
  simp only [Alike, Expression.mapSpans] at same sameMethod sameArguments ⊢
  rw [same, sameMethod, sameArguments]

end Suffixes

section Operands

theorem goes_operand_of_prefixed {words middle left : List Word} {limit : Nat}
    {first good : Expression → Prop}
    (operand : Goes dialect (prefixed? (levels n)) words middle (Present first))
    (next : ∀ read, first read →
      Goes dialect (grow (joined? (levels n) limit) read) middle left good) :
    Goes dialect (Grammar.operand (levels n) limit) words left (Present good) := by
  refine operand.bind ?_
  rintro _ ⟨read, rfl, same⟩
  exact (next read same).bind fun whole isGood => goes_pure ⟨whole, rfl, isGood⟩

/-- Where no operator stands in front, an operand is read without. -/
theorem goes_prefixed?_of_primary {below : Below} {words left : List Word}
    {good : Expression → Prop} (none : w.unary? = none)
    (h : Goes dialect (primary? below) (w :: words) left (Present good)) :
    Goes dialect (prefixed? below) (w :: words) left (Present good) := by
  refine goes_current fun start => ?_
  have noOperator : unaryOperator? (w.token start) = Option.none := none
  rw [noOperator]
  exact h

theorem ofToken?_word {value : Literal} (h : value.IsProper dialect) (start : Position) :
    ∃ read, Literal.ofToken? (value.word.token start) = some read ∧
      Alike Literal.mapSpan value read := by
  obtain ⟨kind, raw, span⟩ := value
  cases kind with
  | boolean truth =>
    cases (show raw = if truth then "true" else "false" from h)
    cases truth <;> exact ⟨_, rfl, rfl⟩
  | _ => exact ⟨_, rfl, rfl⟩

theorem readsBack_literal (value : Literal) : (Expression.literal value).ReadsBack dialect := by
  intro n limit w rest left good proper _ _ _ next
  have noOperator : value.word.unary? = none := by
    obtain ⟨kind, raw, span⟩ := value
    cases kind <;> rfl
  have more : value.word.isSome := by
    obtain ⟨kind, raw, span⟩ := value
    cases kind <;> rfl
  refine goes_operand_of_prefixed (goes_prefixed?_of_primary noOperator ?_) next
  refine goes_production (goes_current fun start => ?_)
  obtain ⟨read, found, same⟩ := ofToken?_word proper start
  rw [found]
  refine (goes_advance more).bind fun _ _ => goes_pure ⟨_, rfl, ?_⟩
  exact congrArg Expression.literal same

theorem readsBack_function {value : FunctionBody} (h : value.ReadsBack dialect) :
    (Expression.function value).ReadsBack dialect := by
  intro n limit w rest left good proper room _ _ next
  refine goes_operand_of_prefixed (goes_prefixed?_of_primary rfl ?_) next
  refine goes_production (goes_current fun start => (goes_takes rfl).yes ?_)
  refine (h proper room).bind fun read same => goes_pure ⟨_, rfl, ?_⟩
  exact congrArg Expression.function same

/-- A name or a group with its suffixes, where an operand is expected. -/
theorem readsBack_of_suffixed {e : Expression} (suffixable : e.isSuffixable)
    (h : e.ReadsBackSuffixed dialect) : e.ReadsBack dialect := by
  intro n limit w rest left good proper room _ stops next
  rw [Expression.inside_of_isSuffixable suffixable] at room
  have goes : Goes dialect (levels n .suffixed) (e.words dialect ++ w :: rest) (w :: rest) _ :=
    goes_suffixed h proper room stops.1
  obtain ⟨v, others, same, base, -⟩ := Expression.begins_base suffixable proper
  obtain ⟨noOperator, noLiteral, noFunction, noTable⟩ := Word.primary_of_isBase base
  rw [same] at goes ⊢
  refine goes_operand_of_prefixed (goes_prefixed?_of_primary noOperator ?_) next
  refine goes_production (goes_current fun start => ?_)
  rw [noLiteral]
  refine (goes_takes_other noFunction).no (goes_get fun c offers => ?_)
  rw [offers.hasText, noTable, if_neg Bool.false_ne_true]
  exact goes

theorem readsBack_unary {operator : UnaryOperator} {operand : Expression}
    (h : operand.ReadsBack dialect) : (Expression.unary operator operand).ReadsBack dialect := by
  intro n limit w rest left good proper room _ stops next
  obtain ⟨-, isOperand, ofOperand⟩ := proper
  have room : 1 + operand.inside ≤ n := room
  obtain ⟨noSuffix, ends⟩ := stops
  simp only [Expression.stops, Bool.and_eq_true, decide_eq_true_eq] at ends
  refine goes_operand_of_prefixed (goes_current fun start => ?_) next
  have found : unaryOperator? (operator.word.token start) = some operator :=
    Word.unary?_word operator
  rw [found]
  refine (goes_advance (Word.isSome_word_unary operator)).bind fun _ _ => ?_
  refine (goes_operand h ofOperand room (Expression.above_of_isOperand isOperand)
    ⟨noSuffix, fun _ member => (ends _ member).2⟩ fun _ member => (ends _ member).1).bind
      fun read same => goes_pure ⟨_, rfl, ?_⟩
  exact congrArg (Expression.unary operator) same

/-- The left operand is read up to the operator, and the right one up to what ends both. -/
theorem readsBack_binary {operator : BinaryOperator} {first second : Expression}
    (ofFirst : first.ReadsBack dialect) (ofSecond : second.ReadsBack dialect) :
    (Expression.binary operator first second).ReadsBack dialect := by
  intro n limit w rest left good proper room above stops next
  obtain ⟨-, takesLeft, takesRight, properFirst, properSecond⟩ := proper
  have room : max first.inside (1 + second.inside) ≤ n := room
  have tight : limit < operator.precedence := of_decide_eq_true above
  obtain ⟨noSuffix, ends⟩ := stops
  simp only [Expression.stops, Bool.and_eq_true, decide_eq_true_eq] at ends
  simp only [Expression.words, List.append_assoc, List.cons_append]
  refine ofFirst properFirst (by omega) (Expression.above_of_takesLeft takesLeft tight)
    (Expression.stopsAt_word (Expression.stops_of_takesLeft properFirst takesLeft))
    fun read same => ?_
  refine goes_grow (shrinks_joined? n limit) (goes_current fun start => ?_) next
  have found : binaryOperator? (operator.word.token start) = some operator :=
    Word.binary?_word operator
  rw [found]
  simp only [if_neg (Nat.not_le_of_lt tight)]
  refine (goes_advance (Word.isSome_word operator)).bind fun _ _ => ?_
  refine (goes_operand ofSecond properSecond (by omega) (Expression.above_of_takesRight takesRight)
    ⟨noSuffix, fun _ member => (ends _ member).2⟩ fun _ member => (ends _ member).1).bind
      fun readSecond sameSecond => goes_pure ⟨_, rfl, ?_⟩
  exact congrArg₂ (Expression.binary operator) same sameSecond

end Operands

end LuaFrontend
