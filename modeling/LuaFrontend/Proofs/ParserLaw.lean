import LuaFrontend.Grammar.Chunk
import LuaFrontend.Proofs.ParserRuns

set_option autoImplicit false

/-
Laws of parsers. A relation that is kept by the steps parsers are made of, by sequences and by
productions holds between the parsers of the grammar and those built in the same way from other
forms. It may depend on how deep productions lie inside one another: four lie inside a level at most,
which are those of a block, a statement, what the statement is, and an expression or the body of a
function in it.
-/

namespace LuaFrontend

open LuaFrontend.Parser

/-- How parsers are compared that have at most so many productions inside one another. -/
structure ParserRelation where
  Relates {α : Type} : Nat → Parser α → Parser α → Prop

namespace ParserRelation

variable {α β : Type}

/-- The relation is kept by what parsers are made of. Of the cursor they see the current token, the
dialect, and how much is still to come. -/
structure IsLaw (r : ParserRelation) : Prop where
  mono : ∀ {α : Type} {k l : Nat} {p q : Parser α}, k ≤ l → r.Relates k p q → r.Relates l p q
  pure : ∀ {α : Type} {k : Nat} (a : α), r.Relates k (pure a) (pure a)
  bind : ∀ {α β : Type} {k : Nat} {p q : Parser α} {f g : α → Parser β}, r.Relates k p q →
    (∀ a, r.Relates k (f a) (g a)) → r.Relates k (p >>= f) (q >>= g)
  look : ∀ {α : Type} {k : Nat} (f g : Token → Dialect → Nat → Parser α),
    (∀ t dialect left, r.Relates k (f t dialect left) (g t dialect left)) →
    r.Relates k (get >>= fun c => f c.current c.dialect c.ahead.length)
      (get >>= fun c => g c.current c.dialect c.ahead.length)
  next : ∀ {k : Nat}, r.Relates k (liftM Cursor.next : Parser Token) (liftM Cursor.next)
  advance : ∀ {k : Nat}, r.Relates k (liftM Cursor.advance : Parser Unit) (liftM Cursor.advance)
  takeComments : ∀ {k : Nat}, r.Relates k (liftM Cursor.takeComments : Parser (List Token))
    (liftM Cursor.takeComments)
  failHere : ∀ {α : Type} {k : Nat} (fault : SyntaxFault),
    r.Relates k (failHere fault : Parser α) (failHere fault)
  unexpected : ∀ {α : Type} {k : Nat}, r.Relates k (unexpected : Parser α) unexpected
  production : ∀ {α : Type} {k : Nat} (production : Production) {p q : Parser α}, r.Relates k p q →
    r.Relates (k + 1) (Parser.production production p) (Parser.production production q)

namespace IsLaw

variable {r : ParserRelation} (law : r.IsLaw) {k b : Nat} {p p' q q' : Parser α}

section Parsers

include law

theorem up (h : r.Relates k p q) : r.Relates (k + 1) p q := law.mono (Nat.le_succ k) h

omit law in
theorem ite {condition : Prop} [Decidable condition] (yes : r.Relates k p q)
    (no : r.Relates k p' q') :
    r.Relates k (if condition then p else p') (if condition then q else q') := by
  split
  · exact yes
  · exact no

/-- A question about the current token and the dialect. -/
theorem asks {question : Cursor → Bool} (answer : Token → Dialect → Bool)
    (same : ∀ c, question c = answer c.current c.dialect) (yes : r.Relates k p q)
    (no : r.Relates k p' q') :
    r.Relates k (get >>= fun c => if question c then p else p')
      (get >>= fun c => if question c then q else q') := by
  simp only [same]
  exact law.look (fun t dialect _ => if answer t dialect then p else p')
    (fun t dialect _ => if answer t dialect then q else q') fun _ _ _ => ite yes no

theorem current_bind {f g : Token → Parser α} (h : ∀ t, r.Relates k (f t) (g t)) :
    r.Relates k (current >>= f) (current >>= g) :=
  law.look (fun t _ _ => f t) (fun t _ _ => g t) fun t _ _ => h t

theorem consume (pattern : Pattern) :
    r.Relates k (liftM (Cursor.consume pattern) : Parser Bool) (liftM (Cursor.consume pattern)) := by
  rw [liftM_consume]
  exact law.asks (fun t _ => pattern.accepts t) (fun _ => rfl)
    (law.bind law.advance fun _ => law.pure true) (law.pure false)

theorem takes (text : String) : r.Relates k (takes text) (takes text) := law.consume _

theorem expect (text : String) : r.Relates k (expect text) (expect text) :=
  law.bind (law.takes text) fun _ => ite (law.pure ()) (law.failHere _)

theorem identifier : r.Relates k identifier identifier :=
  law.current_bind fun _ => ite (law.bind law.advance fun _ => law.pure _) (law.failHere _)

theorem required (what : Expectation) {part other : Parser (Option α)}
    (h : r.Relates k part other) : r.Relates k (required what part) (required what other) := by
  refine law.bind h fun result => ?_
  cases result with
  | some a => exact law.pure a
  | none => exact law.failHere _

theorem behind (text : String) (h : r.Relates k p q) :
    r.Relates k (behind text p) (behind text q) :=
  law.bind (law.takes text) fun _ => ite (law.bind h fun _ => law.pure _) (law.pure none)

omit law in
/-- Of a bound only its length matters. -/
theorem manyUpTo_eq_replicate {γ : Type} (step : Parser (Option α)) (bound : List γ) :
    manyUpTo step bound = manyUpTo step (List.replicate bound.length ()) := by
  induction bound with
  | nil => rfl
  | cons _ bound ih => simp only [List.length_cons, List.replicate_succ, manyUpTo, ih]

theorem many {step other : Parser (Option α)} (h : r.Relates k step other) :
    r.Relates k (many step) (many other) := by
  have upTo (left : Nat) : r.Relates k (manyUpTo step (List.replicate left ()))
      (manyUpTo other (List.replicate left ())) := by
    induction left with
    | zero => exact law.pure []
    | succ left ih =>
      refine law.bind h fun result => ?_
      cases result with
      | some a => exact law.bind ih fun _ => law.pure _
      | none => exact law.pure []
  simp only [Parser.many, manyUpTo_eq_replicate _ (Cursor.ahead _)]
  exact law.look (fun _ _ left => manyUpTo step (List.replicate left ()))
    (fun _ _ left => manyUpTo other (List.replicate left ())) fun _ _ left => upTo left

omit law in
theorem growUpTo_eq_replicate {γ : Type} (step : α → Parser (Option α)) (bound : List γ) :
    growUpTo step bound = growUpTo step (List.replicate bound.length ()) := by
  induction bound with
  | nil => rfl
  | cons _ bound ih =>
    funext start
    simp only [List.length_cons, List.replicate_succ, growUpTo, ih]

theorem grow {step other : α → Parser (Option α)} (h : ∀ a, r.Relates k (step a) (other a))
    (start : α) : r.Relates k (grow step start) (grow other start) := by
  have upTo (left : Nat) (a : α) : r.Relates k (growUpTo step (List.replicate left ()) a)
      (growUpTo other (List.replicate left ()) a) := by
    induction left generalizing a with
    | zero => exact law.pure a
    | succ left ih =>
      refine law.bind (h a) fun result => ?_
      cases result with
      | some b => exact ih b
      | none => exact law.pure a
  simp only [Parser.grow, growUpTo_eq_replicate _ (Cursor.ahead _)]
  exact law.look (fun _ _ left => growUpTo step (List.replicate left ()) start)
    (fun _ _ left => growUpTo other (List.replicate left ()) start) fun _ _ left => upTo left start

theorem afterCommas (h : r.Relates k p q) : r.Relates k (afterCommas p) (afterCommas q) :=
  law.many (law.behind "," h)

theorem commaSeparated (h : r.Relates k p q) :
    r.Relates k (commaSeparated p) (commaSeparated q) :=
  law.bind h fun _ => law.bind (law.afterCommas h) fun _ => law.pure _

theorem discard (h : r.Relates k p q) :
    r.Relates k (Functor.discard p) (Functor.discard q) :=
  law.bind h fun _ => law.pure ()

theorem nextMatchesAny (patterns : List Pattern) :
    r.Relates k (liftM (Cursor.nextMatchesAny patterns) : Parser Bool)
      (liftM (Cursor.nextMatchesAny patterns)) := by
  rw [liftM_nextMatchesAny]
  exact law.bind law.next fun _ => law.pure _

theorem consumeNext (pattern : Pattern) :
    r.Relates k (liftM (Cursor.consumeNext pattern) : Parser Bool)
      (liftM (Cursor.consumeNext pattern)) := by
  rw [liftM_consumeNext]
  refine law.bind law.next fun _ => ite ?_ (law.pure false)
  exact law.bind law.advance fun _ => law.bind law.advance fun _ => law.pure true

end Parsers

open Grammar

variable {below other : Below}

section Parts

variable (ofBlock : r.Relates b (below .block) (other .block))
variable (ofOperand : ∀ limit, r.Relates b (below (.operand limit)) (other (.operand limit)))

include law

section

include ofOperand

theorem expression? : r.Relates (b + 1) (expression? below) (expression? other) :=
  law.production _ (ofOperand 0)

theorem expression : r.Relates (b + 1) (expression below) (expression other) :=
  law.required _ (law.expression? ofOperand)

theorem expressionList : r.Relates (b + 1) (expressionList below) (expressionList other) :=
  law.commaSeparated (law.expression ofOperand)

end

theorem parameter (list : Parameters) : r.Relates k (parameter list) (parameter list) := by
  refine ite (law.pure none) (law.current_bind fun _ => ite ?_ ?_)
  · exact law.bind law.identifier fun _ => law.bind (law.takes ",") fun _ => law.pure _
  · exact law.bind (law.consume _) fun _ => ite (law.pure _) (law.failHere _)

theorem parameters : r.Relates k parameters parameters := by
  refine law.bind (law.expect "(") fun _ => law.bind (law.takes ")") fun _ =>
    ite (law.pure _) ?_
  exact law.bind (law.grow law.parameter _) fun _ => law.bind (law.expect ")") fun _ => law.pure _

include ofBlock in
theorem functionBody : r.Relates (b + 1) (functionBody below) (functionBody other) := by
  refine law.production _ (law.bind law.parameters fun _ => law.bind ofBlock fun _ => ?_)
  exact law.bind (law.expect "end") fun _ => law.pure _

end Parts

section Expressions

variable (h : ∀ form, r.Relates b (below form) (other form))

include law

theorem isKey : r.Relates k isKey isKey :=
  law.current_bind fun _ => ite (law.nextMatchesAny _) (law.pure false)

theorem separator : r.Relates k separator separator :=
  law.asks (fun t _ => [.text ",", .text ";"].any fun p : Pattern => p.accepts t) (fun _ => rfl)
    (law.bind law.advance fun _ => law.pure true) (law.pure false)

include h

theorem field? : r.Relates (b + 1) (field? below) (field? other) := by
  have value := law.expression (h <| .operand ·)
  refine law.bind (law.takes "[") fun _ => ite ?_ (law.bind law.isKey fun _ => ite ?_ ?_)
  · refine law.bind value fun _ => law.bind (law.expect "]") fun _ =>
      law.bind (law.expect "=") fun _ => ?_
    exact law.bind value fun _ => law.pure _
  · refine law.current_bind fun _ => law.bind (law.discard (law.consumeNext _)) fun _ => ?_
    exact law.bind value fun _ => law.pure _
  · exact law.bind (law.expression? (h <| .operand ·)) fun _ => law.pure _

theorem fields : r.Relates (b + 1) (fields below) (fields other) := by
  refine law.bind (law.field? h) fun first => ?_
  cases first with
  | none => exact law.pure []
  | some first =>
    refine law.bind (law.many ?_) fun _ => law.pure _
    exact law.bind law.separator fun _ => ite (law.field? h) (law.pure none)

theorem table : r.Relates (b + 2) (table below) (table other) :=
  law.production _ (law.bind (law.expect _) fun _ => law.bind (law.fields h) fun _ =>
    law.bind (law.expect _) fun _ => law.pure _)

theorem arguments : r.Relates (b + 1) (arguments below) (arguments other) :=
  law.asks (fun t _ => (Pattern.text ")").accepts t) (fun _ => rfl) (law.pure [])
    (law.expressionList (h <| .operand ·))

theorem callArguments? : r.Relates b (callArguments? below) (callArguments? other) := by
  refine law.current_bind fun _ => law.bind (law.takes "(") fun _ => ite ?_
    (law.asks (fun t _ => (Pattern.text "\x7b").accepts t) (fun _ => rfl) ?_ (ite ?_ (law.pure none)))
  · exact law.bind (h .arguments) fun _ => law.bind (law.expect ")") fun _ => law.pure _
  · exact law.bind (h .table) fun _ => law.pure _
  · exact law.bind law.advance fun _ => law.pure _

theorem base? : r.Relates (b + 1) (base? below) (base? other) := by
  refine law.current_bind fun _ => ite ?_ (law.bind (law.takes "(") fun _ =>
    ite ?_ (law.pure none))
  · exact law.bind law.identifier fun _ => law.pure _
  · refine law.bind (law.expression (h <| .operand ·)) fun _ => ?_
    exact law.bind (law.expect ")") fun _ => law.pure _

theorem suffix? (base : Expression) : r.Relates (b + 1) (suffix? below base) (suffix? other base) := by
  have arguments := law.up (law.callArguments? h)
  refine law.bind (law.takes "[") fun _ => ite ?_ (law.bind (law.takes ".") fun _ => ite ?_
    (law.bind (law.takes ":") fun _ => ite ?_ ?_))
  · refine law.bind (law.expression (h <| .operand ·)) fun _ => ?_
    exact law.bind (law.expect "]") fun _ => law.pure _
  · exact law.bind law.identifier fun _ => law.pure _
  · refine law.bind law.identifier fun _ => ?_
    exact law.bind (law.required _ arguments) fun _ => law.pure _
  · exact law.bind arguments fun _ => law.pure _

theorem suffixed : r.Relates (b + 2) (suffixed below) (suffixed other) := by
  refine law.production _ (law.bind (law.base? h) fun base => ?_)
  cases base with
  | some base => exact law.bind (law.grow (law.suffix? h) base) fun _ => law.pure _
  | none => exact law.pure none

theorem primary? : r.Relates (b + 2) (primary? below) (primary? other) := by
  refine law.production _ (law.current_bind fun t => ?_)
  cases Literal.ofToken? t with
  | some value => exact law.bind law.advance fun _ => law.pure _
  | none =>
    refine law.bind (law.takes "function") fun _ => ite ?_
      (law.asks (fun t _ => (Pattern.text "\x7b").accepts t) (fun _ => rfl) ?_ ?_)
    · exact law.bind (law.functionBody (h .block)) fun _ => law.pure _
    · exact law.bind (law.up (h .table)) fun _ => law.pure _
    · exact law.up (h .suffixed)

theorem prefixed? : r.Relates (b + 2) (prefixed? below) (prefixed? other) := by
  refine law.current_bind fun t => ?_
  cases unaryOperator? t with
  | none => exact law.primary? h
  | some operator =>
    refine law.bind law.advance fun _ => ?_
    exact law.bind (law.required _ (law.up (law.up (h _)))) fun _ => law.pure _

theorem joined? (limit : Nat) (left : Expression) :
    r.Relates b (joined? below limit left) (joined? other limit left) := by
  refine law.current_bind fun t => ?_
  cases binaryOperator? t with
  | none => exact law.pure none
  | some operator =>
    refine ite (law.pure none) (law.bind law.advance fun _ => ?_)
    exact law.bind (law.required _ (h _)) fun _ => law.pure _

theorem operand (limit : Nat) : r.Relates (b + 2) (operand below limit) (operand other limit) := by
  refine law.bind (law.prefixed? h) fun left => ?_
  cases left with
  | some left =>
    refine law.bind (law.grow (fun a => ?_) left) fun _ => law.pure _
    exact law.up (law.up (law.joined? h limit a))
  | none => exact law.pure none

end Expressions

section Statements

variable (ofBlock : r.Relates b (below .block) (other .block))
variable (ofOperand : ∀ limit, r.Relates b (below (.operand limit)) (other (.operand limit)))

include law

theorem goto : r.Relates (k + 1) goto goto :=
  law.production _ (law.bind law.advance fun _ => law.bind law.identifier fun _ => law.pure _)

theorem label : r.Relates (k + 1) label label :=
  law.production _ (law.bind law.advance fun _ => law.bind law.identifier fun _ =>
    law.bind (law.expect "::") fun _ => law.pure _)

theorem isJump : r.Relates k isJump isJump :=
  law.asks (fun _ dialect => dialect.labels) (fun _ => rfl) (law.nextMatchesAny _) (law.pure false)

include ofOperand in
theorem returning : r.Relates (b + 2) (returning below) (returning other) := by
  have values : r.Relates (b + 1) (returnedValues below) (returnedValues other) :=
    law.current_bind fun t => law.asks
      (fun u _ => isInBlock t && !(Pattern.text ";").accepts u) (fun _ => rfl)
      (law.expressionList ofOperand) (law.pure [])
  refine law.production _ (law.bind law.advance fun _ => law.bind values fun _ => ?_)
  exact law.bind (law.discard (law.takes ";")) fun _ => law.pure _

include ofBlock

theorem enclosedBlock : r.Relates b (enclosedBlock below) (enclosedBlock other) :=
  law.bind (law.expect "do") fun _ => law.bind ofBlock fun _ =>
    law.bind (law.expect "end") fun _ => law.pure _

theorem doBlock : r.Relates (b + 1) (doBlock below) (doBlock other) :=
  law.production _ (law.bind (law.enclosedBlock ofBlock) fun _ => law.pure _)

theorem functionStatement :
    r.Relates (b + 2) (functionStatement below) (functionStatement other) := by
  refine law.production _ (law.bind law.advance fun _ => law.bind law.identifier fun _ => ?_)
  refine law.bind (law.many (law.behind "." law.identifier)) fun _ => ?_
  refine law.bind (law.behind ":" law.identifier) fun _ => ?_
  exact law.bind (law.functionBody ofBlock) fun _ => law.pure _

include ofOperand

theorem localDeclaration :
    r.Relates (b + 2) (localDeclaration below) (localDeclaration other) := by
  refine law.production _ (law.bind law.advance fun _ => law.bind (law.takes "function") fun _ =>
    ite ?_ ?_)
  · refine law.bind law.identifier fun _ => ?_
    exact law.bind (law.functionBody ofBlock) fun _ => law.pure _
  · refine law.bind (law.commaSeparated law.identifier) fun _ => ?_
    exact law.bind (law.behind "=" (law.expressionList ofOperand)) fun _ => law.pure _

theorem clause : r.Relates (b + 1) (clause below) (clause other) :=
  law.bind law.advance fun _ => law.bind (law.expression ofOperand) fun _ =>
    law.bind (law.expect "then") fun _ => law.bind (law.up ofBlock) fun _ => law.pure _

theorem elseClause? : r.Relates (b + 1) (elseClause? below) (elseClause? other) :=
  law.current_bind fun _ =>
    ite (law.bind (law.clause ofBlock ofOperand) fun _ => law.pure _) (law.pure none)

theorem conditional : r.Relates (b + 2) (conditional below) (conditional other) := by
  refine law.production _ (law.bind (law.clause ofBlock ofOperand) fun _ => ?_)
  refine law.bind (law.many (law.elseClause? ofBlock ofOperand)) fun _ => ?_
  refine law.bind (law.behind "else" (law.up ofBlock)) fun _ => ?_
  exact law.bind (law.expect "end") fun _ => law.pure _

theorem whileLoop : r.Relates (b + 2) (whileLoop below) (whileLoop other) :=
  law.production _ (law.bind law.advance fun _ => law.bind (law.expression ofOperand) fun _ =>
    law.bind (law.up (law.enclosedBlock ofBlock)) fun _ => law.pure _)

theorem forLoop : r.Relates (b + 2) (forLoop below) (forLoop other) := by
  have value := law.expression ofOperand
  have body := law.up (law.enclosedBlock ofBlock)
  refine law.production _ (law.bind law.advance fun _ => law.bind law.identifier fun _ => ?_)
  refine law.bind (law.takes "=") fun _ => ite ?_ ?_
  · refine law.bind value fun _ => law.bind (law.expect ",") fun _ => law.bind value fun _ => ?_
    refine law.bind (law.behind "," value) fun _ => ?_
    exact law.bind body fun _ => law.pure _
  · refine law.bind (law.afterCommas law.identifier) fun _ => law.bind (law.expect "in") fun _ => ?_
    refine law.bind (law.expressionList ofOperand) fun _ => ?_
    exact law.bind body fun _ => law.pure _

theorem repeatLoop : r.Relates (b + 2) (repeatLoop below) (repeatLoop other) :=
  law.production _ (law.bind law.advance fun _ => law.bind (law.up ofBlock) fun _ =>
    law.bind (law.expect "until") fun _ => law.bind (law.expression ofOperand) fun _ => law.pure _)

variable (assignment : r.Relates (b + 2) (assignmentOrCall below) (assignmentOrCall other))

include assignment

theorem statement : r.Relates (b + 3) (statement below) (statement other) := by
  refine law.production _ (law.current_bind fun t => ?_)
  cases Heading.ofToken t with
  | localDeclaration => exact law.localDeclaration ofBlock ofOperand
  | conditional => exact law.conditional ofBlock ofOperand
  | function => exact law.functionStatement ofBlock
  | whileLoop => exact law.whileLoop ofBlock ofOperand
  | forLoop => exact law.forLoop ofBlock ofOperand
  | repeatLoop => exact law.repeatLoop ofBlock ofOperand
  | doBlock => exact law.up (law.doBlock ofBlock)
  | goto => exact law.goto
  | breakLoop => exact law.bind law.advance fun _ => law.pure _
  | label => exact law.label
  | gotoName => exact law.bind law.isJump fun _ => ite law.goto assignment
  | assignmentOrCall => exact assignment

theorem statement? : r.Relates (b + 3) (statement? below) (statement? other) := by
  refine law.bind (law.discard (law.many (law.behind ";" (law.pure ())))) fun _ => ?_
  exact law.current_bind fun _ => ite
    (law.bind (law.statement ofBlock ofOperand assignment) fun _ => law.pure _) (law.pure none)

theorem block : r.Relates (b + 4) (block below) (block other) := by
  refine law.production _ (law.bind (law.many (law.statement? ofBlock ofOperand assignment))
    fun _ => law.current_bind fun _ => ?_)
  exact ite (law.bind (law.up (law.returning ofOperand)) fun _ => law.pure _) (law.pure _)

end Statements

section Forms

variable (h : ∀ form, r.Relates b (below form) (other form))

include law h

theorem target : r.Relates b (target below) (target other) := by
  refine law.bind (h .suffixed) fun value => ?_
  cases value with
  | some value => exact law.pure value
  | none => exact law.unexpected

theorem assignmentOrCall :
    r.Relates (b + 2) (assignmentOrCall below) (assignmentOrCall other) := by
  have target := law.up (law.target h)
  refine law.production _ (law.bind target fun _ =>
    law.asks (fun t _ => [.text ",", .text "="].any fun p : Pattern => p.accepts t) (fun _ => rfl)
      ?_ (ite (law.pure _) law.unexpected))
  refine law.bind (law.afterCommas target) fun _ => ite ?_ law.unexpected
  exact law.bind (law.expect "=") fun _ =>
    law.bind (law.expressionList (h <| .operand ·)) fun _ => law.pure _

theorem rule (form : Form) : r.Relates (b + 4) (rule below form) (rule other form) := by
  cases form with
  | block => exact law.block (h .block) (h <| .operand ·) (law.assignmentOrCall h)
  | operand limit => exact law.up (law.up (law.operand h limit))
  | suffixed => exact law.up (law.up (law.suffixed h))
  | table => exact law.up (law.up (law.table h))
  | arguments => exact law.mono (Nat.add_le_add_left (by decide) b) (law.arguments h)

end Forms

/-- The law holds of every form, with four productions for each level that is left. -/
theorem levels (law : r.IsLaw) (depth : Nat) (form : Form) :
    r.Relates (4 * depth) (levels depth form) (levels depth form) := by
  induction depth generalizing form with
  | zero => exact law.failHere _
  | succ depth ih => exact law.rule ih form

/-- The law holds of the parse of a text from its first token on. -/
theorem chunk (law : r.IsLaw) (depth : Nat) :
    r.Relates (4 * depth + 1) (chunk depth) (chunk depth) := by
  refine law.production _ (law.bind (law.levels depth .block) fun _ => law.current_bind fun _ => ?_)
  exact ite (law.bind law.takeComments fun _ => law.pure _) law.unexpected

end IsLaw
end ParserRelation
end LuaFrontend
