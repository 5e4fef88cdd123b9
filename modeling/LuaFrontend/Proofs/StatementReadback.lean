import LuaFrontend.Proofs.ListReadback

set_option autoImplicit false

namespace LuaFrontend

open LuaFrontend.Grammar
open LuaFrontend.Parser

variable (dialect : Dialect)

/-- A statement is read back, a `return` as the last one of a block. -/
def Statement.ReadsBack (s : Statement) : Prop :=
  ∀ ⦃n rest⦄, s.IsProper dialect → s.levels ≤ n →
    if s.isReturn then
      Goes dialect (Grammar.returning (Grammar.levels n)) (s.words dialect ++ Word.sign ";" :: rest)
        rest (Alike Statement.mapSpans s)
    else
      Goes dialect (statement (Grammar.levels n)) (s.words dialect ++ Word.sign ";" :: rest)
        (Word.sign ";" :: rest) (Alike Statement.mapSpans s)

/-- A clause is read back from behind the word that begins it. -/
def Clause.ReadsBack (c : Clause) : Prop :=
  ∀ ⦃n v w rest⦄, c.IsProper dialect → c.levels ≤ n → v.isSome → w.closesBlock →
    Goes dialect (clause (Grammar.levels n)) (v :: (c.words dialect ++ w :: rest)) (w :: rest)
      (Alike Clause.mapSpans c)

variable {dialect} {w : Word} {rest : List Word} {n : Nat}

section Blocks

theorem goes_enclosedBlock {block : Block} (h : Block.ReadsBack dialect block)
    (proper : Statement.IsProperAll dialect block) (room : block.levels ≤ n) :
    Goes dialect (enclosedBlock (levels n))
      (Word.keyword "do" :: (Statement.wordsAll dialect block ++ Word.keyword "end" :: rest)) rest
      (Alike Statement.mapSpansAll block) := by
  refine (goes_expect rfl).bind fun _ _ => (h proper room rfl).bind fun read same => ?_
  exact (goes_expect rfl).bind fun _ _ => goes_pure same

theorem readsBack_doBlock {block : Block} (h : Block.ReadsBack dialect block) :
    (Statement.doBlock block).ReadsBack dialect := by
  intro n rest proper room
  simp only [Statement.words, List.cons_append, List.append_assoc, List.nil_append]
  refine goes_production (goes_current fun start => ?_)
  change Goes dialect (doBlock (levels n)) _ _ _
  refine goes_production ((goes_enclosedBlock h proper room).bind fun read same => goes_pure ?_)
  exact congrArg Statement.doBlock same

theorem readsBack_whileLoop {condition : Expression} {block : Block}
    (ofCondition : condition.ReadsBack dialect) (ofBlock : Block.ReadsBack dialect block) :
    (Statement.whileLoop condition block).ReadsBack dialect := by
  intro n rest ⟨properCondition, properBlock⟩ room
  have room : max (1 + condition.inside) (1 + Statement.levelsAll block) ≤ n := room
  have deep : block.levels ≤ n := Nat.le_trans (Nat.le_max_right _ _) room
  simp only [Statement.words, List.cons_append, List.append_assoc, List.nil_append]
  refine goes_production (goes_current fun start => ?_)
  change Goes dialect (whileLoop (levels n)) _ _ _
  refine goes_production ((goes_advance rfl).bind fun _ _ => ?_)
  refine (goes_expression ofCondition properCondition (by omega) rfl).bind fun read same => ?_
  refine (goes_enclosedBlock ofBlock properBlock deep).bind fun inside alike => goes_pure ?_
  exact congrArg₂ Statement.whileLoop same alike

theorem readsBack_repeatLoop {condition : Expression} {block : Block}
    (ofBlock : Block.ReadsBack dialect block) (ofCondition : condition.ReadsBack dialect) :
    (Statement.repeatLoop block condition).ReadsBack dialect := by
  intro n rest ⟨properBlock, properCondition⟩ room
  have room : max (1 + Statement.levelsAll block) (1 + condition.inside) ≤ n := room
  have deep : block.levels ≤ n := Nat.le_trans (Nat.le_max_left _ _) room
  simp only [Statement.words, List.cons_append, List.append_assoc]
  refine goes_production (goes_current fun start => ?_)
  change Goes dialect (repeatLoop (levels n)) _ _ _
  refine goes_production ((goes_advance rfl).bind fun _ _ => ?_)
  refine (ofBlock properBlock deep rfl).bind fun inside alike => ?_
  refine (goes_expect rfl).bind fun _ _ => ?_
  refine (goes_expression ofCondition properCondition (by omega) rfl).bind fun read same => ?_
  exact goes_pure (congrArg₂ Statement.repeatLoop alike same)

end Blocks

section Clauses

theorem readsBack_clause {condition : Expression} {block : Block}
    (ofCondition : condition.ReadsBack dialect) (ofBlock : Block.ReadsBack dialect block) :
    (Clause.mk condition block).ReadsBack dialect := by
  intro n v w rest ⟨properCondition, properBlock⟩ room some ends
  have room : max (1 + condition.inside) (1 + Statement.levelsAll block) ≤ n := room
  have deep : block.levels ≤ n := Nat.le_trans (Nat.le_max_right _ _) room
  simp only [Clause.words, List.cons_append, List.append_assoc]
  refine (goes_advance some).bind fun _ _ => ?_
  refine (goes_expression ofCondition properCondition (by omega) rfl).bind fun read same => ?_
  refine (goes_expect rfl).bind fun _ _ => ?_
  refine (ofBlock properBlock deep ends).bind fun inside alike => goes_pure ?_
  exact congrArg₂ Clause.mk same alike

/-- Clauses behind the first, up to the `else` or `end` behind them. -/
theorem goes_elseClauses {clauses : List Clause} (h : ∀ c ∈ clauses, c.ReadsBack dialect)
    (proper : Clause.IsProperAll dialect clauses) (room : Clause.levelsAll clauses ≤ n)
    (ends : w.closesBlock) (ended : w.isText "elseif" = false) :
    Goes dialect (many (elseClause? (levels n))) (Clause.wordsAll dialect clauses ++ w :: rest)
      (w :: rest) (List.Forall₂ (Alike Clause.mapSpans) clauses) := by
  rw [Clause.wordsAll_eq]
  have shrinks := shrinks_elseClause? (reads_levels n)
  refine goes_many_items (fun u => u.closesBlock) shrinks ?_ ?_ ends ?_
  · intro c member u more closes
    have deep := Nat.le_trans (Clause.le_levelsAll member) room
    refine goes_current fun start => ?_
    refine (h c member (Clause.isProperAll_iff.mp proper c member) deep rfl closes).bind ?_
    intro read same
    exact goes_pure ⟨read, rfl, same⟩
  · intro c _
    exact ⟨_, _, rfl, rfl⟩
  · refine goes_current fun start => ?_
    rw [Word.isWord_eq_false ended]
    exact goes_pure rfl

/-- The block behind `else`, if there is one. -/
theorem goes_otherwise {otherwise : Option Block}
    (h : ∀ block ∈ otherwise, Block.ReadsBack dialect block)
    (proper : Statement.IsProperElse dialect otherwise)
    (room : Statement.levelsElse otherwise ≤ n) :
    Goes dialect (behind "else" (levels n .block))
      (Statement.wordsElse dialect otherwise ++ Word.keyword "end" :: rest)
      (Word.keyword "end" :: rest) (Alike Statement.mapSpansElse otherwise) := by
  cases otherwise with
  | none =>
    refine (goes_behind_other rfl).mono ?_
    rintro _ rfl
    rfl
  | some block =>
    refine (goes_behind rfl (h block rfl proper room rfl)).mono ?_
    rintro _ ⟨read, rfl, same⟩
    exact congrArg some same

theorem exists_head_otherwise (dialect : Dialect) (otherwise : Option Block) (rest : List Word) :
    ∃ u more, Statement.wordsElse dialect otherwise ++ Word.keyword "end" :: rest = u :: more ∧
      u.closesBlock ∧ u.isText "elseif" = false := by
  cases otherwise with
  | none => exact ⟨_, _, rfl, rfl, rfl⟩
  | some block => exact ⟨_, _, rfl, rfl, rfl⟩

theorem alike_clauses {first second : List Clause}
    (h : List.Forall₂ (Alike Clause.mapSpans) first second) :
    Alike Clause.mapSpansAll first second := by
  simp only [Alike, Clause.mapSpansAll_eq]
  exact Alike.list h

theorem readsBack_conditional {clauses : List Clause} {otherwise : Option Block}
    (ofClauses : ∀ c ∈ clauses, c.ReadsBack dialect)
    (ofOtherwise : ∀ block ∈ otherwise, Block.ReadsBack dialect block) :
    (Statement.conditional clauses otherwise).ReadsBack dialect := by
  intro n rest ⟨more, properClauses, properOtherwise⟩ room
  cases clauses with
  | nil => exact absurd rfl more
  | cons first others =>
    have room : max (max first.levels (Clause.levelsAll others))
      (Statement.levelsElse otherwise) ≤ n := room
    have last : Goes dialect (behind "else" (levels n .block))
        (Statement.wordsElse dialect otherwise ++ Word.keyword "end" :: Word.sign ";" :: rest)
        _ _ :=
      goes_otherwise ofOtherwise properOtherwise (by omega)
    obtain ⟨v, after, tail, ends, ended⟩ :=
      exists_head_otherwise dialect otherwise (Word.sign ";" :: rest)
    have loop : Goes dialect (many (elseClause? (levels n)))
        (Clause.wordsAll dialect others ++ v :: after) _ _ :=
      goes_elseClauses (fun c member => ofClauses c (List.mem_cons_of_mem _ member))
        properClauses.2 (by omega) ends ended
    have heads : ∀ c ∈ others, ∃ u more, Word.keyword "elseif" :: c.words dialect = u :: more ∧
        u.closesBlock :=
      fun _ _ => ⟨_, _, rfl, rfl⟩
    obtain ⟨u, more, head, closes⟩ := exists_head heads ends after
    simp only [Statement.words, Clause.wordsAll, List.cons_append, List.tail_cons,
      List.append_assoc, List.nil_append, tail] at last ⊢
    rw [Clause.wordsAll_eq] at loop ⊢
    rw [head] at loop ⊢
    refine goes_production (goes_current fun start => ?_)
    change Goes dialect (conditional (levels n)) _ _ _
    have begun : Goes dialect (clause (levels n))
        (Word.keyword "if" :: (first.words dialect ++ u :: more)) _ _ :=
      ofClauses first List.mem_cons_self properClauses.1 (by omega) rfl closes
    refine goes_production (begun.bind fun read same => loop.bind fun reads alike => ?_)
    refine last.bind fun block isBlock => (goes_expect rfl).bind fun _ _ => goes_pure ?_
    exact congrArg₂ Statement.conditional (alike_clauses (.cons same alike)) isBlock

end Clauses

section Declarations

/-- Names behind commas, up to a word that is no comma. -/
theorem goes_moreNames (names : List Identifier) (closes : w.closes)
    (noComma : w.isText "," = false) :
    Goes dialect (afterCommas identifier)
      ((names.flatMap fun id => [Word.sign ",", id.word]) ++ w :: rest) (w :: rest)
      (List.Forall₂ (Alike Identifier.mapSpan) names) := by
  refine goes_afterCommas (shrinks_behind "," reads_identifier) ?_ closes noComma
  intro id _ u more _
  exact (goes_identifier rfl).mono fun read same => alike_identifier same

theorem goes_names {names : List Identifier} (some : names ≠ []) (closes : w.closes)
    (noComma : w.isText "," = false) :
    Goes dialect (commaSeparated identifier)
      (commas (names.map fun id => [id.word]) ++ w :: rest) (w :: rest)
      (List.Forall₂ (Alike Identifier.mapSpan) names) := by
  refine goes_commaSeparated (shrinks_behind "," reads_identifier) ?_ some closes noComma
  intro id _ u more _
  exact (goes_identifier rfl).mono fun read same => alike_identifier same

/-- The values behind an equals sign, which are left out with it if there are none. -/
theorem goes_initialValues {values : List Expression} (h : ∀ e ∈ values, e.ReadsBack dialect)
    (proper : Expression.IsProperAll dialect values) (room : Expression.levelsAll values ≤ n) :
    Goes dialect (behind "=" (expressionList (levels n)))
      ((if values.isEmpty then [] else
        Word.sign "=" :: commas (Expression.wordsEach dialect values)) ++ Word.sign ";" :: rest)
      (Word.sign ";" :: rest) fun read => Alike Expression.mapSpansAll values (read.getD []) := by
  cases values with
  | nil =>
    refine (goes_behind_other rfl).mono ?_
    rintro _ rfl
    rfl
  | cons e others =>
    refine (goes_behind rfl
      (goes_expressionList h proper room (List.cons_ne_nil _ _) rfl rfl)).mono ?_
    rintro _ ⟨read, rfl, same⟩
    exact same

theorem readsBack_localVariables {names : List Identifier} {values : List Expression}
    (h : ∀ e ∈ values, e.ReadsBack dialect) :
    (Statement.localVariables names values).ReadsBack dialect := by
  intro n rest ⟨nonempty, _, proper⟩ room
  simp only [Statement.words, List.cons_append, List.append_assoc]
  have last : Goes dialect (behind "=" (expressionList (levels n)))
      (_ ++ Word.sign ";" :: rest) _ _ :=
    goes_initialValues h proper room
  have named : ∃ u more, (if values.isEmpty then [] else
      Word.sign "=" :: commas (Expression.wordsEach dialect values)) ++ Word.sign ";" :: rest =
        u :: more ∧ u.closes ∧ u.isText "," = false := by
    cases values with
    | nil => exact ⟨_, _, rfl, rfl, rfl⟩
    | cons e others => exact ⟨_, _, rfl, rfl, rfl⟩
  obtain ⟨u, more, head, closes, noComma⟩ := named
  rw [head] at last ⊢
  refine goes_production (goes_current fun start => ?_)
  change Goes dialect (localDeclaration (levels n)) _ _ _
  have list : Goes dialect (commaSeparated identifier) (_ ++ u :: more) _ _ :=
    goes_names nonempty closes noComma
  cases names with
  | nil => exact absurd rfl nonempty
  | cons id names =>
    refine goes_production ((goes_advance rfl).bind fun _ _ => (goes_takes_other rfl).no ?_)
    refine list.bind fun reads same => last.bind fun read alike => goes_pure ?_
    exact congrArg₂ Statement.localVariables (Alike.list same) alike

theorem readsBack_localFunction {value : FunctionBody} (name : Identifier)
    (h : value.ReadsBack dialect) : (Statement.localFunction name value).ReadsBack dialect := by
  intro n rest ⟨_, proper⟩ room
  simp only [Statement.words, List.cons_append]
  refine goes_production (goes_current fun start => ?_)
  change Goes dialect (localDeclaration (levels n)) _ _ _
  refine goes_production ((goes_advance rfl).bind fun _ _ => (goes_takes rfl).yes ?_)
  refine (goes_identifier rfl).bind fun read same => (h proper room).bind fun body alike => ?_
  exact goes_pure (congrArg₂ Statement.localFunction (alike_identifier same) alike)

/-- The fields in the name of a function. -/
theorem goes_fieldNames (fields : List Identifier) (ended : w.isText "." = false) :
    Goes dialect (many (behind "." identifier))
      ((fields.flatMap fun id => [Word.sign ".", id.word]) ++ w :: rest) (w :: rest)
      (List.Forall₂ (Alike Identifier.mapSpan) fields) := by
  refine goes_many_items (fun _ => True) (shrinks_behind "." reads_identifier) ?_ ?_ trivial
    (goes_behind_other ended)
  · intro id _ u more _
    refine goes_behind rfl ((goes_identifier rfl).mono fun read same => ?_)
    exact alike_identifier same
  · intro id _
    exact ⟨_, _, rfl, trivial⟩

theorem goes_methodName (method : Option Identifier) :
    Goes dialect (behind ":" identifier) (methodWords method ++ Word.sign "(" :: rest)
      (Word.sign "(" :: rest) (Alike (fun f => Option.map (Identifier.mapSpan f)) method) := by
  cases method with
  | none =>
    refine (goes_behind_other rfl).mono ?_
    rintro _ rfl
    rfl
  | some method =>
    refine (goes_behind rfl (goes_identifier rfl)).mono ?_
    rintro _ ⟨read, rfl, same⟩
    exact congrArg some (alike_identifier same)

theorem readsBack_functionStatement {value : FunctionBody} (name : FunctionName)
    (h : value.ReadsBack dialect) : (Statement.function name value).ReadsBack dialect := by
  intro n rest ⟨_, proper⟩ room
  obtain ⟨root, fields, method⟩ := name
  have body : Goes dialect (functionBody (levels n))
      (value.words dialect ++ Word.sign ";" :: rest) _ _ := h proper room
  have opened : ∃ more, value.words dialect ++ Word.sign ";" :: rest = Word.sign "(" :: more := by
    cases value
    exact ⟨_, rfl⟩
  obtain ⟨more, head⟩ := opened
  have last : Goes dialect (behind ":" identifier) (_ ++ Word.sign "(" :: more) _ _ :=
    goes_methodName method
  have ended : ∃ u after, methodWords method ++ Word.sign "(" :: more = u :: after ∧
      u.isText "." = false := by
    cases method <;> exact ⟨_, _, rfl, rfl⟩
  obtain ⟨u, after, tail, noField⟩ := ended
  simp only [Statement.words, FunctionName.words, List.cons_append, List.append_assoc, head, tail]
    at last ⊢
  rw [head] at body
  refine goes_production (goes_current fun start => ?_)
  change Goes dialect (functionStatement (levels n)) _ _ _
  refine goes_production ((goes_advance rfl).bind fun _ _ => ?_)
  refine (goes_identifier rfl).bind fun readRoot sameRoot => ?_
  refine (goes_fieldNames fields noField).bind fun readFields sameFields => ?_
  refine last.bind fun readMethod sameMethod => body.bind fun read same => goes_pure ?_
  have sameRoot := alike_identifier sameRoot
  have sameFields := Alike.list sameFields
  simp only [Alike, Statement.mapSpans, FunctionName.mapSpans] at *
  rw [sameRoot, sameFields, sameMethod, same]

end Declarations

section Loops

/-- The third number of a loop, if there is one. -/
theorem goes_step {step : Option Expression} (h : ∀ e ∈ step, e.ReadsBack dialect)
    (proper : Expression.IsProperStep dialect step) (room : Expression.levelsStep step ≤ n) :
    Goes dialect (behind "," (expression (levels n)))
      (Expression.wordsStep dialect step ++ Word.keyword "do" :: rest) (Word.keyword "do" :: rest)
      (Alike Expression.mapSpansStep step) := by
  cases step with
  | none =>
    refine (goes_behind_other rfl).mono ?_
    rintro _ rfl
    rfl
  | some e =>
    refine (goes_behind rfl (goes_expression (h e rfl) proper room rfl)).mono ?_
    rintro _ ⟨read, rfl, same⟩
    exact congrArg some same

theorem readsBack_numericFor {first last : Expression} {step : Option Expression} {block : Block}
    (counter : Identifier) (ofFirst : first.ReadsBack dialect) (ofLast : last.ReadsBack dialect)
    (ofStep : ∀ e ∈ step, e.ReadsBack dialect) (ofBlock : Block.ReadsBack dialect block) :
    (Statement.numericFor counter first last step block).ReadsBack dialect := by
  intro n rest ⟨_, properFirst, properLast, properStep, properBlock⟩ room
  have room : max (max (1 + first.inside) (1 + last.inside))
    (max (Expression.levelsStep step) block.levels) ≤ n := room
  have third : Goes dialect (behind "," (expression (levels n))) (_ ++ Word.keyword "do" ::
      (Statement.wordsAll dialect block ++ Word.keyword "end" :: Word.sign ";" :: rest)) _ _ :=
    goes_step ofStep properStep (by omega)
  have closed : ∃ u more, Expression.wordsStep dialect step ++ Word.keyword "do" ::
      (Statement.wordsAll dialect block ++ Word.keyword "end" :: Word.sign ";" :: rest) =
        u :: more ∧ u.closes := by
    cases step <;> exact ⟨_, _, rfl, rfl⟩
  obtain ⟨u, more, head, closes⟩ := closed
  simp only [Statement.words, List.cons_append, List.append_assoc, List.nil_append, head]
    at third ⊢
  refine goes_production (goes_current fun start => ?_)
  change Goes dialect (forLoop (levels n)) _ _ _
  refine goes_production ((goes_advance rfl).bind fun _ _ => ?_)
  refine (goes_identifier rfl).bind fun name same => (goes_takes rfl).yes ?_
  refine (goes_expression ofFirst properFirst (by omega) rfl).bind fun start isStart => ?_
  refine (goes_expect rfl).bind fun _ _ => ?_
  refine (goes_expression ofLast properLast (by omega) closes).bind fun stop isStop => ?_
  refine third.bind fun change isChange => ?_
  refine (goes_enclosedBlock ofBlock properBlock (by omega)).bind fun inside isInside => ?_
  refine goes_pure ?_
  have same := alike_identifier same
  simp only [Alike, Statement.mapSpans] at same isStart isStop isChange isInside ⊢
  rw [same, isStart, isStop, isChange, isInside]

theorem readsBack_genericFor {names : List Identifier} {iterators : List Expression}
    {block : Block} (ofIterators : ∀ e ∈ iterators, e.ReadsBack dialect)
    (ofBlock : Block.ReadsBack dialect block) :
    (Statement.genericFor names iterators block).ReadsBack dialect := by
  intro n rest ⟨named, iterated, _, properIterators, properBlock⟩ room
  have room : max (Expression.levelsAll iterators) block.levels ≤ n := room
  cases names with
  | nil => exact absurd rfl named
  | cons id names =>
    simp only [Statement.words, commas_map_cons, List.cons_append, List.append_assoc,
      List.nil_append]
    generalize behind : commas (Expression.wordsEach dialect iterators) ++ Word.keyword "do" ::
      (Statement.wordsAll dialect block ++ Word.keyword "end" :: Word.sign ";" :: rest) = words
    have others : Goes dialect (afterCommas identifier) (_ ++ Word.keyword "in" :: words) _ _ :=
      goes_moreNames names rfl rfl
    have heads : ∀ j ∈ names, ∃ u more, [Word.sign ",", j.word] = u :: more ∧
        u.isText "=" = false :=
      fun _ _ => ⟨_, _, rfl, rfl⟩
    have last : (Word.keyword "in").isText "=" = false := rfl
    obtain ⟨u, more, head, noEquals⟩ := exists_head heads last words
    rw [head] at others ⊢
    refine goes_production (goes_current fun start => ?_)
    change Goes dialect (forLoop (levels n)) _ _ _
    refine goes_production ((goes_advance rfl).bind fun _ _ => ?_)
    refine (goes_identifier rfl).bind fun first same => (goes_takes_other noEquals).no ?_
    refine others.bind fun reads alike => (goes_expect rfl).bind fun _ _ => ?_
    rw [← behind]
    refine (goes_expressionList ofIterators properIterators (by omega) iterated rfl rfl).bind
      fun values areValues => ?_
    refine (goes_enclosedBlock ofBlock properBlock (by omega)).bind fun inside isInside => ?_
    refine goes_pure ?_
    have areNames := Alike.list (.cons (alike_identifier same) alike)
    simp only [Alike, Statement.mapSpans] at areNames areValues isInside ⊢
    rw [areNames, areValues, isInside]

end Loops

section Jumps

theorem readsBack_breakLoop : Statement.breakLoop.ReadsBack dialect := by
  intro n rest _ _
  refine goes_production (goes_current fun start => ?_)
  exact (goes_advance rfl).bind fun _ _ => goes_pure rfl

theorem readsBack_label (name : Identifier) : (Statement.label name).ReadsBack dialect := by
  intro n rest _ _
  refine goes_production (goes_current fun start => ?_)
  change Goes dialect label _ _ _
  refine goes_production ((goes_advance rfl).bind fun _ _ => ?_)
  refine (goes_identifier rfl).bind fun read same => (goes_expect rfl).bind fun _ _ => ?_
  exact goes_pure (congrArg Statement.label (alike_identifier same))

theorem goes_goto (label : Identifier) (some : w.isSome) :
    Goes dialect goto (w :: label.word :: rest) rest
      (Alike Statement.mapSpans (.goto label)) := by
  refine goes_production ((goes_advance some).bind fun _ _ => ?_)
  refine (goes_identifier rfl).bind fun read same => goes_pure ?_
  exact congrArg Statement.goto (alike_identifier same)

theorem readsBack_goto (label : Identifier) : (Statement.goto label).ReadsBack dialect := by
  intro n rest ⟨labels, _⟩ _
  simp only [Statement.words, gotoSpelling]
  refine goes_production (goes_current fun start => ?_)
  cases contextual : dialect.contextualGoto with
  | false =>
    change Goes dialect goto _ _ _
    exact goes_goto label rfl
  | true =>
    have jump : Goes dialect isJump ((.identifier, "goto") :: label.word :: Word.sign ";" :: rest)
        ((.identifier, "goto") :: label.word :: Word.sign ";" :: rest) (· = true) := by
      refine goes_get fun c offers => ?_
      rw [offers.dialect_eq, if_pos (labels contextual)]
      exact goes_nextMatchesAny rfl fun _ => rfl
    change Goes dialect (do if ← isJump then goto else assignmentOrCall (levels n)) _ _ _
    exact jump.yes (goes_goto label rfl)

end Jumps

section Targets

theorem goes_target {e : Expression} (h : e.ReadsBackSuffixed dialect)
    (proper : e.IsProper dialect) (room : 1 + e.chain ≤ n) (stop : w.isSuffix = false) :
    Goes dialect (target (levels n)) (e.words dialect ++ w :: rest) (w :: rest)
      (Alike Expression.mapSpans e) := by
  refine (goes_suffixed h proper room stop).bind ?_
  rintro _ ⟨read, rfl, same⟩
  exact goes_pure same

/-- What begins with a name or a group is an assignment or a call: where the name is `goto`, no name
stands behind it. -/
theorem goes_statement_of_base {words left : List Word} {good : Statement → Prop}
    (begins : Begins Word.isBase words) (noName : w.1 ≠ .identifier)
    (h : Goes dialect (assignmentOrCall (levels n)) (words ++ w :: rest) left good) :
    Goes dialect (statement (levels n)) (words ++ w :: rest) left good := by
  obtain ⟨v, others, rfl, base, next⟩ := begins
  refine goes_production (goes_current fun start => ?_)
  obtain ⟨name, rfl⟩ | rfl := Word.isBase_cases base
  · by_cases isGoto : name = "goto"
    · subst isGoto
      have noJump : Goes dialect isJump ((.identifier, "goto") :: (others ++ w :: rest))
          ((.identifier, "goto") :: (others ++ w :: rest)) (· = false) := by
        refine goes_get fun c offers => ?_
        by_cases labels : c.dialect.labels
        · rw [if_pos labels]
          cases others with
          | nil => exact goes_nextMatchesAny rfl fun _ => beq_eq_false_iff_ne.mpr noName
          | cons u others =>
            refine goes_nextMatchesAny rfl fun _ => beq_eq_false_iff_ne.mpr fun named => ?_
            have closes := Word.closes_of_identifier named
            rw [next rfl u rfl] at closes
            cases closes
        · rw [if_neg labels]
          exact goes_pure rfl
      exact noJump.no h
    · have heading : Heading.ofToken (Word.token (.identifier, name) start) =
          .assignmentOrCall := if_neg isGoto
      rw [heading]
      exact h
  · exact h

theorem readsBack_call {e : Expression} (h : e.isSuffixable → e.ReadsBackSuffixed dialect) :
    (Statement.call e).ReadsBack dialect := by
  intro n rest ⟨isCall, proper⟩ room
  have suffixable := Expression.isSuffixable_of_isCall isCall
  refine goes_statement_of_base (Expression.begins_base suffixable proper) (by decide) ?_
  refine goes_production ((goes_target (h suffixable) proper room rfl).bind fun read same => ?_)
  refine goes_get fun c offers => ?_
  have readCall : read.isCall := by
    rw [← Expression.isCall_mapSpans fun _ => {}, ← show _ = _ from same,
      Expression.isCall_mapSpans]
    exact isCall
  rw [offers.matchesAny, if_neg (by decide), if_pos readCall]
  exact goes_pure (congrArg Statement.call same)

theorem all_isAssignable_of_alike {targets reads : List Expression}
    (same : List.Forall₂ (Alike Expression.mapSpans) targets reads)
    (assignable : ∀ e ∈ targets, e.isAssignable) : reads.all (·.isAssignable) := by
  induction same with
  | nil => rfl
  | @cons e read targets reads same others ih =>
    have first : read.isAssignable := by
      rw [← Expression.isAssignable_mapSpans fun _ => {}, ← show _ = _ from same,
        Expression.isAssignable_mapSpans]
      exact assignable e List.mem_cons_self
    rw [List.all_cons, first, Bool.true_and]
    exact ih fun e member => assignable e (List.mem_cons_of_mem _ member)

/-- Behind the first target stands a comma or the equals sign. -/
theorem exists_head_targets (dialect : Dialect) (targets : List Expression) (words : List Word) :
    ∃ u more, (targets.flatMap fun e => Word.sign "," :: e.words dialect) ++
        Word.sign "=" :: words = u :: more ∧
      u.isSuffix = false ∧ u.1 ≠ .identifier ∧ (u.isText "," || u.isText "=") := by
  refine exists_head (fun _ _ => ⟨_, _, rfl, ?_⟩) ?_ words
  · exact ⟨rfl, by decide, rfl⟩
  · exact ⟨rfl, by decide, rfl⟩

theorem readsBack_assignment {targets values : List Expression}
    (ofTargets : ∀ e ∈ targets, e.isSuffixable → e.ReadsBackSuffixed dialect)
    (ofValues : ∀ e ∈ values, e.ReadsBack dialect) :
    (Statement.assignment targets values).ReadsBack dialect := by
  intro n rest ⟨targeted, valued, assignable, properTargets, properValues⟩ room
  have room : max (Expression.levelsTargets targets) (Expression.levelsAll values) ≤ n := room
  cases targets with
  | nil => exact absurd rfl targeted
  | cons first others =>
    have suffixable := fun e member =>
      Expression.isSuffixable_of_isAssignable (assignable e member)
    have proper := Expression.isProperAll_iff.mp properTargets
    have deep : ∀ e ∈ first :: others, 1 + e.chain ≤ n := fun e member =>
      Nat.le_trans (Expression.le_levelsTargets member) (by omega)
    have each : ∀ e ∈ first :: others, ∀ u more, u.isSuffix = false →
        Goes dialect (target (levels n)) (e.words dialect ++ u :: more) (u :: more)
          (Alike Expression.mapSpans e) := fun e member u more stop =>
      goes_target (ofTargets e member (suffixable e member)) (proper e member) (deep e member) stop
    simp only [Statement.words, Expression.wordsEach_eq, commas_map_cons, List.append_assoc,
      List.cons_append]
    generalize behind : commas (values.map (·.words dialect)) ++ Word.sign ";" :: rest = words
    have loop : Goes dialect (afterCommas (target (levels n))) (_ ++ Word.sign "=" :: words) _ _ :=
      goes_afterCommas (shrinks_behind "," (reads_target (reads_levels n)))
        (fun e member u more closes => each e (List.mem_cons_of_mem _ member) u more
          (Word.isSuffix_of_closes closes)) rfl rfl
    obtain ⟨u, more, head, stop, noName, goesOn⟩ :=
      exists_head_targets dialect others words
    rw [head] at loop ⊢
    have begins := Expression.begins_base (suffixable first List.mem_cons_self)
      (proper first List.mem_cons_self)
    refine goes_statement_of_base begins noName ?_
    refine goes_production ((each first List.mem_cons_self u more stop).bind fun read same => ?_)
    refine goes_get fun c offers => ?_
    rw [offers.matchesAny, if_pos goesOn]
    refine loop.bind fun reads alike => ?_
    have readAll := all_isAssignable_of_alike (.cons same alike) assignable
    simp only [if_pos readAll]
    refine (goes_expect rfl).bind fun _ _ => ?_
    rw [← behind, ← Expression.wordsEach_eq]
    refine (goes_expressionList ofValues properValues (by omega) valued rfl rfl).bind
      fun readValues areValues => goes_pure ?_
    exact congrArg₂ Statement.assignment (alike_expressions (.cons same alike)) areValues

end Targets

section Blocks

theorem readsBack_returning {values : List Expression} (h : ∀ e ∈ values, e.ReadsBack dialect) :
    (Statement.returning values).ReadsBack dialect := by
  intro n rest proper room
  change Goes dialect (returning (levels n)) _ _ _
  simp only [Statement.words, List.cons_append]
  have returned : Goes dialect (returnedValues (levels n))
      (commas (Expression.wordsEach dialect values) ++ Word.sign ";" :: rest)
      (Word.sign ";" :: rest) (Alike Expression.mapSpansAll values) := by
    cases values with
    | nil =>
      refine goes_current fun start => goes_get fun c offers => ?_
      rw [offers.hasText, if_neg (by simp [Word.isText, Word.sign, Pattern.isFreelySpelled])]
      exact goes_pure rfl
    | cons e others =>
      have list : Goes dialect (expressionList (levels n)) (_ ++ Word.sign ";" :: rest) _ _ :=
        goes_expressionList h proper room (List.cons_ne_nil _ _) rfl rfl
      obtain ⟨v, behind, same, opens, -⟩ := Expression.begins proper.1
      have noEnd : v.isText ";" = false := Word.isText_of_opens opens (by decide)
      simp only [Expression.wordsEach_eq, commas_map_cons, same] at list ⊢
      refine goes_current fun start => goes_get fun c offers => ?_
      have stands : (isInBlock (v.token start) && !c.hasText ";") = true := by
        rw [offers.hasText, noEnd, Word.isInBlock_token, Word.closesBlock_of_opens opens]
        rfl
      rw [if_pos stands]
      exact list
  refine goes_production ((goes_advance rfl).bind fun _ _ => returned.bind fun read same => ?_)
  refine (goes_discard (goes_takes rfl)).bind fun _ _ => goes_pure ?_
  exact congrArg Statement.returning same

/-- A word that a statement can begin with: it ends no block, is no semicolon and no `return`. -/
def Word.beginsStatement (w : Word) : Bool :=
  !w.closesBlock && !w.isText ";" && !w.isText "return"

theorem Statement.words_eq_cons {s : Statement} (proper : s.IsProper dialect)
    (other : s.isReturn = false) :
    ∃ w others, s.words dialect = w :: others ∧ w.beginsStatement := by
  have base {e : Expression} (suffixable : e.isSuffixable) (ofExpression : e.IsProper dialect) :
      ∃ w others, e.words dialect = w :: others ∧ w.beginsStatement := by
    obtain ⟨v, behind, same, isBase, -⟩ := Expression.begins_base suffixable ofExpression
    refine ⟨v, behind, same, ?_⟩
    obtain ⟨name, rfl⟩ | rfl := Word.isBase_cases isBase <;> rfl
  cases s with
  | assignment targets values =>
    obtain ⟨some, -, assignable, ofTargets, -⟩ := proper
    cases targets with
    | nil => exact absurd rfl some
    | cons first others =>
      have suffixable :=
        Expression.isSuffixable_of_isAssignable (assignable first List.mem_cons_self)
      obtain ⟨v, behind, same, begins⟩ := base suffixable ofTargets.1
      exact ⟨v, _, by simp only [words, Expression.wordsEach, commas, same, List.cons_append]; rfl,
        begins⟩
  | call e =>
    obtain ⟨isCall, ofCall⟩ := proper
    exact base (Expression.isSuffixable_of_isCall isCall) ofCall
  | returning values => cases other
  | goto label =>
    refine ⟨_, _, rfl, ?_⟩
    cases contextual : dialect.contextualGoto <;> simp only [gotoSpelling, contextual] <;> rfl
  | _ => exact ⟨_, _, rfl, rfl⟩

/-- Semicolons before a word that is none. -/
theorem goes_semicolons (count : Nat) (ended : w.isText ";" = false) :
    Goes dialect (discard (many (behind ";" (pure ()))))
      (List.replicate count (Word.sign ";") ++ w :: rest) (w :: rest) fun _ => True := by
  have loop : Goes dialect (many (behind ";" (pure ())))
      (List.replicate count (Word.sign ";") ++ w :: rest) (w :: rest) fun _ => True := by
    have shrinks : Shrinks (behind ";" (pure ())) := shrinks_behind ";" reads_nothing
    induction count with
    | zero => exact (goes_many_end shrinks (goes_behind_other ended)).mono fun _ _ => trivial
    | succ count ih =>
      have nothing (words : List Word) :
          Goes dialect (pure () : Parser Unit) words words fun _ => True :=
        goes_pure trivial
      exact goes_many shrinks (goes_behind rfl (nothing _)) fun _ _ => ih
  exact goes_discard loop

theorem goes_statement? {s : Statement} (h : s.ReadsBack dialect) (proper : s.IsProper dialect)
    (room : s.levels ≤ n) (other : s.isReturn = false) (count : Nat) :
    Goes dialect (statement? (levels n))
      (List.replicate count (Word.sign ";") ++ (s.words dialect ++ Word.sign ";" :: rest))
      (Word.sign ";" :: rest) (Present (Alike Statement.mapSpans s)) := by
  have read : Goes dialect (statement (levels n)) (s.words dialect ++ Word.sign ";" :: rest)
      (Word.sign ";" :: rest) (Alike Statement.mapSpans s) := by
    have reads := @h n rest proper room
    rw [other] at reads
    exact reads
  obtain ⟨v, others, same, begins⟩ := Statement.words_eq_cons proper other
  simp only [Word.beginsStatement, Bool.and_eq_true, Bool.not_eq_true'] at begins
  obtain ⟨⟨inside, noSemicolon⟩, noReturn⟩ := begins
  rw [same] at read ⊢
  refine (goes_semicolons count noSemicolon).bind fun _ _ => goes_current fun start => ?_
  have stands : (isInBlock (v.token start) && !(v.token start).isWord "return") = true := by
    rw [Word.isWord_eq_false noReturn, Word.isInBlock_token, inside]
    rfl
  rw [if_pos stands]
  exact read.bind fun result alike => goes_pure ⟨result, rfl, alike⟩

/-- Behind its statements a block goes on with a `return` or ends. -/
theorem goes_statement?_end (below : Below) (count : Nat)
    (last : w.closesBlock ∨ w = Word.keyword "return") :
    Goes dialect (statement? below) (List.replicate count (Word.sign ";") ++ w :: rest) (w :: rest)
      (· = none) := by
  have noSemicolon : w.isText ";" = false := by
    obtain closes | rfl := last
    · exact Word.isText_of_closesBlock closes (by decide)
    · rfl
  refine (goes_semicolons count noSemicolon).bind fun _ _ => goes_current fun start => ?_
  have ended : (isInBlock (w.token start) && !(w.token start).isWord "return") = false := by
    obtain closes | rfl := last
    · rw [Word.isInBlock_token, closes]
      rfl
    · rfl
  rw [ended, if_neg Bool.false_ne_true]
  exact goes_pure rfl

/-- The statements of a block before its `return`. -/
theorem goes_statements {block : Block} (h : ∀ s ∈ block, s.ReadsBack dialect)
    (proper : Statement.IsProperAll dialect block) (room : Statement.levelsAll block ≤ n)
    (ends : w.closesBlock) (count : Nat) :
    Goes dialect (many (statement? (levels n)))
      (List.replicate count (Word.sign ";") ++ (Statement.wordsAll dialect block ++ w :: rest))
      (Statement.wordsAll dialect (block.dropWhile (!·.isReturn)) ++ w :: rest)
      (List.Forall₂ (Alike Statement.mapSpans) (block.takeWhile (!·.isReturn))) := by
  have shrinks := shrinks_statement? (reads_levels n)
  induction block generalizing count with
  | nil =>
    refine (goes_many_end shrinks (goes_statement?_end _ count (.inl ends))).mono ?_
    rintro _ rfl
    exact .nil
  | cons s others ih =>
    obtain ⟨ofStatement, -, ofOthers⟩ := proper
    have room : max s.levels (Statement.levelsAll others) ≤ n := room
    have first := h s List.mem_cons_self
    cases last : s.isReturn with
    | true =>
      rw [List.dropWhile_cons_of_neg (by simp [last]), List.takeWhile_cons_of_neg (by simp [last])]
      obtain ⟨values, rfl⟩ : ∃ values, s = .returning values := by
        cases s <;> first | exact ⟨_, rfl⟩ | cases last
      refine (goes_many_end shrinks (goes_statement?_end _ count (.inr rfl))).mono ?_
      rintro _ rfl
      exact .nil
    | false =>
      rw [List.dropWhile_cons_of_pos (by simp [last]), List.takeWhile_cons_of_pos (by simp [last])]
      have more := ih (fun t member => h t (List.mem_cons_of_mem _ member)) ofOthers (by omega) 1
      simp only [Statement.wordsAll, List.append_assoc, List.cons_append]
      refine goes_many shrinks (goes_statement? first ofStatement (by omega) last count)
        fun read same => more.mono fun reads alike => .cons same alike

theorem dropWhile_eq {block : Block} (proper : Statement.IsProperAll dialect block) :
    block.dropWhile (!·.isReturn) = [] ∨
      ∃ values, .returning values ∈ block ∧
        block.dropWhile (!·.isReturn) = [.returning values] := by
  induction block with
  | nil => exact .inl rfl
  | cons s others ih =>
    obtain ⟨-, alone, ofOthers⟩ := proper
    cases last : s.isReturn with
    | true =>
      obtain ⟨values, rfl⟩ : ∃ values, s = .returning values := by
        cases s <;> first | exact ⟨_, rfl⟩ | cases last
      obtain rfl := alone rfl
      exact .inr ⟨values, List.mem_cons_self, rfl⟩
    | false =>
      rw [List.dropWhile_cons_of_pos (by simp [last])]
      obtain none | ⟨values, member, same⟩ := ih ofOthers
      · exact .inl none
      · exact .inr ⟨values, List.mem_cons_of_mem _ member, same⟩

theorem Statement.isProper_of_mem {s : Statement} {block : Block}
    (proper : Statement.IsProperAll dialect block) (member : s ∈ block) : s.IsProper dialect := by
  induction member with
  | head others => exact proper.1
  | tail _ _ ih => exact ih proper.2.2

theorem alike_block {first second : Block}
    (h : List.Forall₂ (Alike Statement.mapSpans) first second) :
    Alike Statement.mapSpansAll first second := by
  simp only [Alike, Statement.mapSpansAll_eq]
  exact Alike.list h

/-- A block whose statements are read back is read back, the `return` behind the others. -/
theorem goes_block {block : Block} (h : ∀ s ∈ block, s.ReadsBack dialect) :
    Block.ReadsBack dialect block := by
  intro n w rest proper room ends
  cases n with
  | zero => simp [Block.levels] at room
  | succ n =>
    have deep : Statement.levelsAll block ≤ n := by
      simp only [Block.levels] at room
      omega
    have statements : Goes dialect (many (statement? (levels n)))
        (Statement.wordsAll dialect block ++ w :: rest) _ _ :=
      goes_statements h proper deep ends 0
    have whole : block.takeWhile (!·.isReturn) ++ block.dropWhile (!·.isReturn) = block :=
      List.takeWhile_append_dropWhile
    refine goes_production (statements.bind fun reads alike => ?_)
    obtain none | ⟨values, member, last⟩ := dropWhile_eq proper
    · rw [none, List.append_nil] at whole
      rw [none]
      refine goes_current fun start => ?_
      rw [Word.isWord_eq_false (Word.isText_of_closesBlock ends (by decide))]
      rw [whole] at alike
      exact goes_pure (alike_block alike)
    · rw [last] at whole
      rw [last]
      have read : Goes dialect (returning (levels n))
          ((Statement.returning values).words dialect ++ Word.sign ";" :: w :: rest) _ _ :=
        h _ member (Statement.isProper_of_mem proper member)
          (Nat.le_trans (Statement.le_levelsAll member) deep)
      simp only [Statement.wordsAll, List.append_assoc, List.cons_append, List.nil_append]
      refine goes_current fun start => ?_
      refine read.bind fun result same => goes_pure ?_
      have both : List.Forall₂ (Alike Statement.mapSpans)
          (block.takeWhile (!·.isReturn) ++ [.returning values]) (reads ++ [result]) :=
        List.rel_append alike (.cons same .nil)
      rw [whole] at both
      exact alike_block both

end Blocks

end LuaFrontend
