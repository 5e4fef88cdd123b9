import LuaFrontend.Proofs.ExpressionForesight
import LuaFrontend.Proofs.StatementReadback

set_option autoImplicit false

namespace LuaFrontend

open LuaFrontend.Grammar
open LuaFrontend.Parser
open Outcome (IsInput)

instance : Nonempty Statement := ⟨.breakLoop⟩

instance : Nonempty Clause := ⟨.mk (.table []) []⟩

namespace Word

theorem kind_of_closesBlock {w : Word} (h : w.closesBlock) :
    w.1 = .endOfInput ∨ w.1 = .keyword := by
  by_contra other
  simp only [not_or] at other
  simp [closesBlock, isInBlock, token, Token.isEnd, Token.endsBlock, Token.isKeyword, other] at h

/-- No expression goes on with what ends a block. -/
theorem closes_of_closesBlock {w : Word} (h : w.closesBlock) : w.closes := by
  have other (text : String) (fixed : text ∉ ["else", "elseif", "end", "until"]) :
      w.isText text = false :=
    isText_of_closesBlock h fixed
  have noString : w.1 ≠ .string := by
    rcases kind_of_closesBlock h with kind | kind <;> simp [kind]
  have noOperator : w.binary? = none := by
    rcases kind_of_closesBlock h with kind | kind <;>
      simp [binary?, binaryOperator?, token, kind, isOperatorKind]
  have noSuffix : w.isSuffix = false := isSuffix_eq_false.mpr
    ⟨other _ (by decide), other _ (by decide), other _ (by decide), other _ (by decide),
      other _ (by decide), noString⟩
  simp [closes, noSuffix, noOperator]

theorem isSuffix_of_closesBlock {w : Word} (h : w.closesBlock) : w.isSuffix = false :=
  isSuffix_of_closes (closes_of_closesBlock h)

end Word

namespace Conduct

/-- A statement, up to a word that ends the block. -/
def statement : Conduct Statement where
  after w := w.closesBlock
  takes := True

/-- A target of an assignment, made one by a field where it is completed. -/
def target : Conduct Expression where
  after w := w.isSuffix = false
  good e := e.isAssignable
  takes := True
  enters t := t.kind = .identifier

/-- Targets of an assignment. -/
def targets (viable : Prop) : Conduct (List Expression) where
  after w := w.isText "," = false ∧ w.isSuffix = false
  good es := viable → es.all (·.isAssignable)
  takes := True
  enters t := t.kind = .identifier

end Conduct

variable {dialect : Dialect} {viable : Prop} {below : Below} {n : Nat}

section Declarations

theorem foretells_names : Foretells dialect viable (commaSeparated identifier)
    (commaSeparated identifier)
    { after := fun w => w.isText "," = false, takes := True, enters := (·.kind = .identifier),
      words := [someName] } := by
  have shrinks : Shrinks (behind "," identifier) := shrinks_behind "," reads_identifier
  exact (foretells_commaSeparated foretells_identifier trivial shrinks shrinks).mono
    ⟨fun _ stops => ⟨stops, trivial⟩, fun _ _ => .inl trivial, fun _ => id, id, fun _ => id⟩ rfl

/-- A local declaration behind its first word. -/
def declared (below : Below) : Parser Statement := do
  if ← takes "function" then
    let name ← identifier
    return .localFunction name (← functionBody below)
  else
    let names ← commaSeparated identifier
    let values ← behind "=" (expressionList below)
    return .localVariables names (values.getD [])

theorem foretells_declared (h : ForeseesForms dialect viable below n) :
    Foretells dialect viable (declared below) (declared (levels n))
      { Conduct.statement with words := [someName] } := by
  have function := (@foretells_identifier dialect viable).then_enclosed
    (fun name => (foretells_functionBody h).then_pure (f := Statement.localFunction name)
      (fun _ => True) fun _ _ => trivial) fun _ => trivial
  have values (names : List Identifier) :=
    (foretells_behind "=" (foretells_expressionList h)).then_pure
      (f := fun values => Statement.localVariables names (values.getD [])) (fun _ => True)
      fun _ _ => trivial
  have named : Foretells dialect viable _ _ { Conduct.statement with words := [someName] } :=
    (foretells_names.bind values fun _ stops => (stops.2.resolve_left id).1).mono
      ⟨fun w stops => ?_, fun _ _ => .inl (.inl trivial), fun _ => id, fun _ => .inl trivial,
        fun _ => False.elim⟩ rfl
  · exact ⟨foresees_takes_bind function named.foresees (fun _ _ => ⟨trivial, .inl trivial⟩)
      (fun _ => id) fun noTakes => absurd trivial noTakes, fun v =>
        ⟨(named.feeds v).proper, fun w rest stops =>
          (goes_takes_other rfl).no ((named.feeds v).goes w rest stops)⟩⟩
  · have noComma : w.isText "," = false := Word.isText_of_closesBlock stops (by decide)
    have noEquals : w.isText "=" = false := Word.isText_of_closesBlock stops (by decide)
    exact ⟨⟨noEquals, ⟨noComma, Word.closes_of_closesBlock stops⟩, .inl trivial⟩,
      .inr ⟨noComma, noEquals⟩⟩

/-- Names, each behind such a sign. -/
theorem foretells_namesBehind (text : String) : Foretells dialect viable
    (many (behind text identifier)) (many (behind text identifier))
    { after := fun w => w.isText text = false, instead := fun w => w.isText text = false } := by
  have shrinks : Shrinks (behind text identifier) := shrinks_behind text reads_identifier
  exact foretells_many _ (foretells_behind text foretells_identifier).foresees
    (fun _ ends => ⟨ends, trivial, .inl trivial⟩) (fun _ => id) shrinks shrinks
    fun _ v rest ends => goes_behind_other ends

end Declarations

section Statements

variable {t : Token}

/-- A statement behind its first token. -/
theorem foresees_behindFirst {p q : Parser Statement} {k : Conduct Statement}
    (production : Production) (more : t.isEnd = false) (h : Foretells dialect viable p q k)
    (after : ∀ w, w.closesBlock → k.after w ∧ (k.takes ∨ k.instead w)) :
    Foresees dialect viable (at' t)
      (Parser.production production (liftM Cursor.advance >>= fun _ => p))
      (Parser.production production (liftM Cursor.advance >>= fun _ => q)) .statement :=
  foresees_production production (h.passed (k := .statement) more after fun _ _ => trivial)
    fun _ _ here => here

theorem foresees_localDeclaration (h : ForeseesForms dialect viable below n)
    (more : t.isEnd = false) :
    Foresees dialect viable (at' t) (localDeclaration below) (localDeclaration (levels n))
      .statement :=
  foresees_behindFirst _ more (foretells_declared h) fun _ stops => ⟨stops, .inl trivial⟩

theorem foresees_clause (h : ForeseesForms dialect viable below n) (more : t.isEnd = false) :
    Foresees dialect viable (at' t) (clause below) (clause (levels n))
      { after := fun w => w.closesBlock, takes := True } := by
  have behind := (foretells_expression h).bind (fun condition =>
    (foretells_keyword "then" (by decide) (by decide)).behind fun _ =>
      h.block.then_pure (f := Clause.mk condition) (fun _ => True) fun _ _ => trivial) fun _ _ => rfl
  exact behind.passed more (fun _ stops => ⟨⟨⟨stops, .inr stops⟩, .inl trivial⟩, .inl (.inl trivial)⟩) fun _ _ => trivial

theorem foresees_elseClause? (h : ForeseesForms dialect viable below n) :
    Foresees dialect viable anywhere (elseClause? below) (elseClause? (levels n))
      { after := fun w => w.closesBlock, instead := fun w => w.isText "elseif" = false } := by
  refine foresees_if (·.isWord "elseif") (fun _ => clause below >>= fun c => pure (some c))
    (fun _ => clause (levels n) >>= fun c => pure (some c)) (fun _ => rfl) (fun _ => rfl)
    (fun t begins => ?_) (foresees_pure none id fun _ _ => id) fun _ t stops =>
      Bool.eq_false_iff.mp (Word.isWord_eq_false stops)
  exact (foresees_clause h (isEnd_of_accepts (accepts_of_isWord begins))).then_pure _
    fun _ _ => trivial

theorem foretells_elseClauses (h : ForeseesForms dialect viable below n) :
    Foretells dialect viable (many (elseClause? below)) (many (elseClause? (levels n)))
      { after := (· = Word.keyword "end"), instead := (· = Word.keyword "end") } := by
  refine foretells_many _ (foresees_elseClause? h) ?_ ?_ (shrinks_elseClause? h.reads)
    (shrinks_elseClause? (reads_levels n)) ?_
  · rintro _ rfl
    rfl
  · rintro _ rfl
    rfl
  · rintro _ _ rest rfl
    exact goes_current fun _ => goes_pure rfl

theorem foresees_conditional (h : ForeseesForms dialect viable below n) (more : t.isEnd = false) :
    Foresees dialect viable (at' t) (conditional below) (conditional (levels n)) .statement := by
  have ending (first : Clause) := (foretells_elseClauses h).then_enclosed (fun others =>
    (foretells_behind "else" h.block).then_enclosed (fun otherwise =>
      (foretells_keyword "end" (by decide) (by decide)).then_pure
        (f := fun _ => Statement.conditional (first :: others) otherwise) (fun _ => True)
        fun _ _ => trivial) fun _ => ⟨rfl, rfl, .inr rfl⟩) fun _ => rfl
  refine foresees_production _ (((foresees_clause h more).bind ending fun _ _ => rfl).mono
    ⟨fun _ _ => ⟨trivial, .inl trivial⟩, fun _ _ => .inl (.inl trivial), fun _ => id,
      fun _ => .inl trivial, fun _ => False.elim⟩) fun _ _ here => here

theorem foresees_functionStatement (h : ForeseesForms dialect viable below n)
    (more : t.isEnd = false) :
    Foresees dialect viable (at' t) (functionStatement below) (functionStatement (levels n))
      .statement := by
  have named := (@foretells_identifier dialect viable).then_enclosed
    (fun root => (foretells_namesBehind ".").then_enclosed (fun fields =>
      (foretells_behind ":" foretells_identifier).then_enclosed (fun method =>
        (foretells_functionBody h).then_pure (f := Statement.function ⟨root, fields, method⟩)
          (fun _ => True) fun _ _ => trivial) fun _ => ⟨rfl, trivial, .inl trivial⟩) fun _ => rfl)
    fun _ => trivial
  exact foresees_behindFirst _ more named fun _ _ => ⟨trivial, .inl trivial⟩

theorem foretells_enclosedBlock (h : ForeseesForms dialect viable below n) :
    Foretells dialect viable (enclosedBlock below) (enclosedBlock (levels n))
      (.enclosed [.keyword "do", .keyword "end"]) :=
  (foretells_keyword "do" (by decide) (by decide)).then_enclosed (fun _ =>
    h.block.then_enclosed (fun block => (foretells_keyword "end" (by decide) (by decide)).then_pure
      (f := fun _ => block) (fun _ => True) fun _ _ => trivial) fun _ => rfl) fun _ => trivial

theorem foresees_whileLoop (h : ForeseesForms dialect viable below n) (more : t.isEnd = false) :
    Foresees dialect viable (at' t) (whileLoop below) (whileLoop (levels n)) .statement := by
  have behind := (foretells_expression h).then_enclosed (fun condition =>
    (foretells_enclosedBlock h).then_pure (f := Statement.whileLoop condition) (fun _ => True)
      fun _ _ => trivial) fun _ => rfl
  exact foresees_behindFirst _ more behind fun _ _ => ⟨trivial, .inl trivial⟩

/-- The ranges of a loop over numbers, and the loop. -/
def numericLoop (below : Below) (counter : Identifier) : Parser Statement := do
  let first ← expression below
  expect ","
  let last ← expression below
  let step ← behind "," (expression below)
  return .numericFor counter first last step (← enclosedBlock below)

/-- The names and iterators of a loop over values, and the loop. -/
def genericLoop (below : Below) (counter : Identifier) : Parser Statement := do
  let others ← afterCommas identifier
  expect "in"
  let iterators ← expressionList below
  return .genericFor (counter :: others) iterators (← enclosedBlock below)

theorem foretells_numericLoop (h : ForeseesForms dialect viable below n) (counter : Identifier) :
    Foretells dialect viable (numericLoop below counter) (numericLoop (levels n) counter)
      (.enclosed [Word.nilWord, .sign ",", Word.nilWord, .keyword "do", .keyword "end"]) := by
  have ending (first last : Expression) :=
    (foretells_behind "," (foretells_expression h)).then_enclosed (fun step =>
      (foretells_enclosedBlock h).then_pure (f := Statement.numericFor counter first last step)
        (fun _ => True) fun _ _ => trivial) fun _ => ⟨rfl, rfl, .inl trivial⟩
  exact (foretells_expression h).then_enclosed (fun first =>
    (foretells_sign "," (by decide)).then_enclosed (fun _ =>
      (foretells_expression h).then_enclosed (ending first) fun _ => rfl) fun _ => trivial)
    fun _ => rfl

theorem foretells_genericLoop (h : ForeseesForms dialect viable below n) (counter : Identifier) :
    Foretells dialect viable (genericLoop below counter) (genericLoop (levels n) counter)
      (.enclosed [.keyword "in", Word.nilWord, .keyword "do", .keyword "end"]) := by
  exact (foretells_namesBehind ",").then_enclosed (fun names =>
    (foretells_keyword "in" (by decide) (by decide)).then_enclosed (fun _ =>
      (foretells_expressionList h).then_enclosed (fun iterators =>
        (foretells_enclosedBlock h).then_pure
          (f := Statement.genericFor (counter :: names) iterators) (fun _ => True)
          fun _ _ => trivial) fun _ => ⟨rfl, rfl⟩) fun _ => trivial) fun _ => rfl

theorem foresees_forLoop (h : ForeseesForms dialect viable below n) (more : t.isEnd = false) :
    Foresees dialect viable (at' t) (forLoop below) (forLoop (levels n)) .statement := by
  have generic (counter : Identifier) := foretells_genericLoop h counter
  have either (counter : Identifier) : Foretells dialect viable
      (do if ← takes "=" then numericLoop below counter else genericLoop below counter)
      (do if ← takes "=" then numericLoop (levels n) counter else genericLoop (levels n) counter)
      (.enclosed [.keyword "in", Word.nilWord, .keyword "do", .keyword "end"]) :=
    ⟨foresees_takes_bind (foretells_numericLoop h counter) (generic counter).foresees
      (fun _ _ => ⟨trivial, .inl trivial⟩) (fun _ => id) fun noTakes => absurd trivial noTakes,
      fun v => ⟨((generic counter).feeds v).proper, fun w rest stops =>
        (goes_takes_other rfl).no (((generic counter).feeds v).goes w rest stops)⟩⟩
  have counted := (@foretells_identifier dialect viable).then_enclosed either
    fun _ => trivial
  exact foresees_behindFirst _ more counted fun _ _ => ⟨trivial, .inl trivial⟩

theorem foresees_repeatLoop (h : ForeseesForms dialect viable below n) (more : t.isEnd = false) :
    Foresees dialect viable (at' t) (repeatLoop below) (repeatLoop (levels n)) .statement := by
  have behind := h.block.bind (fun block =>
    (foretells_keyword "until" (by decide) (by decide)).behind fun _ =>
      (foretells_expression h).then_pure (f := Statement.repeatLoop block) (fun _ => True)
        fun _ _ => trivial) fun _ _ => rfl
  exact foresees_behindFirst _ more behind fun _ stops =>
    ⟨⟨⟨Word.closes_of_closesBlock stops, .inl trivial⟩, .inl trivial⟩, .inl (.inr trivial)⟩

theorem foresees_doBlock (h : ForeseesForms dialect viable below n) :
    Foresees dialect viable (at' t) (doBlock below) (doBlock (levels n)) .statement := by
  have made := (foretells_enclosedBlock h).then_pure (f := Statement.doBlock) (fun _ => True)
    fun _ _ => trivial
  exact foresees_production _ ((made.foresees.from fun _ _ => trivial).mono ⟨fun _ _ => trivial,
    fun _ _ => .inl trivial, fun _ => id, id, fun _ => id⟩) fun _ _ here => here

/-- A jump takes its first token whatever that is. -/
theorem foresees_goto (more : t.isEnd = false) :
    Foresees dialect viable (at' t) goto goto
      { Conduct.statement with enters := fun _ => True } := by
  have named := (@foretells_identifier dialect viable).then_pure
    (f := Statement.goto) (fun _ => True) fun _ _ => trivial
  exact foresees_production _ (named.passed (k := { Conduct.statement with enters := fun _ => True })
    more (fun _ _ => ⟨trivial, .inl trivial⟩) fun _ _ => trivial) fun _ _ here => here

theorem foresees_label (more : t.isEnd = false) (colons : (Word.sign "::").IsProper dialect) :
    Foresees dialect viable (at' t) label label .statement := by
  have last : Foretells dialect viable (expect "::") (expect "::") (.enclosed [.sign "::"]) :=
    foretells_expect rfl colons
  have named := (@foretells_identifier dialect viable).then_enclosed
    (fun name => last.then_pure (f := fun _ => Statement.label name) (fun _ => True)
      fun _ _ => trivial) fun _ => trivial
  exact foresees_behindFirst _ more named fun _ _ => ⟨trivial, .inl trivial⟩

end Statements

section Targets

/-- What is read as a target can be made one. In front of a comma it is one. -/
structure ForeseesTarget (dialect : Dialect) (viable : Prop) (p q : Parser Expression) : Prop where
  foresees : Foresees dialect viable anywhere p q .target
  completes : ∀ ⦃c a e⦄, c.IsLegible dialect → p c = .ok a e → ∃ taken : List Token,
    c.upcoming = taken.map .ok ++ e.upcoming ∧ taken ≠ [] ∧ Completes dialect q taken .target
  strict : viable → ∀ ⦃c a e⦄, p c = .ok a e → (Pattern.text ",").accepts e.current → a.isAssignable
  goes : viable → ∀ id : Identifier, id.IsProper dialect → ∀ v rest, v.isSuffix = false →
    Goes dialect q (id.word :: v :: rest) (v :: rest) fun a => a.isAssignable
  reads : p.Reads Expression.written
  reads' : q.Reads Expression.written

theorem target_eq (below : Below) : target below = below .suffixed >>= orElse unexpected := by
  unfold target
  congr
  funext r
  cases r <;> rfl

theorem target_ok {c e : Cursor} {a : Expression} (run : target below c = .ok a e) :
    below .suffixed c = .ok (some a) e := by
  obtain ⟨r, d, ofPart, result⟩ := bind_ok.mp run
  cases r with
  | none => exact absurd result not_unexpected_ok
  | some b =>
    obtain ⟨rfl, rfl⟩ := pure_ok.mp result
    exact ofPart

theorem foreseesTarget (h : ForeseesForms dialect viable below n)
    (strict : viable → ∀ ⦃c a e⦄, below .suffixed c = .ok (some a) e →
      (Pattern.text ",").accepts e.current → a.isAssignable) :
    ForeseesTarget dialect viable (target below) (target (levels n)) where
  foresees := by
    have shrinks : Shrinks (below .suffixed) := shrinks_of_reads (h.reads .suffixed) fun e => by simp
    rw [target_eq, target_eq]
    exact foresees_orElse (h.suffixed.foresees .field) (fun _ => id) shrinks
      (noneTakesNone_of_reads (h.reads .suffixed)) (foresees_unexpected fun _ _ => id)
      fun _ _ _ => not_unexpected_ok
  completes c a e legible run := by
    obtain ⟨taken, view, some, words, proper, goes⟩ :=
      h.suffixed.completes .field legible (target_ok run)
    refine ⟨taken, view, some, words, proper, fun d tokens v rest stops faces spelled => ?_⟩
    obtain ⟨_, g, suffixed, ⟨b, rfl, isGood⟩, left⟩ := goes stops faces spelled
    exact ⟨b, g, bind_ok.mpr ⟨_, _, suffixed, rfl⟩, isGood, left⟩
  strict can c a e run comma := strict can (target_ok run) comma
  goes can id proper v rest stop := by
    have room := h.enough can
    refine (goes_target (readsBackSuffixed_name id) proper (show 1 ≤ n by omega) stop).mono
      fun read same => ?_
    simpa using all_isAssignable_of_alike (.cons same .nil) fun e member => by
      rw [List.mem_singleton.mp member]
      rfl
  reads := reads_target h.reads
  reads' := reads_target (reads_levels n)

variable {p q : Parser Expression}

/-- The targets behind one that has been read. -/
def moreTargets (p : Parser Expression) (first : Expression) : Parser (List Expression) :=
  afterCommas p >>= fun others => pure (first :: others)

/-- What stands behind the comma. -/
def commaTargets (p : Parser Expression) (first : Expression) : Parser (List Expression) :=
  commaSeparated p >>= fun others => pure (first :: others)

theorem moreTargets_eq (reads : p.Reads Expression.written) (first : Expression) {c : Cursor}
    (input : IsInput c.upcoming) : moreTargets p first c =
      (do if ← takes "," then commaTargets p first else return [first] :
        Parser (List Expression)) c := by
  have loop := many_eq (shrinks_behind "," reads) input
  rw [moreTargets, afterCommas, bind_eq_of_eq loop, behind, takes, bind_assoc, bind_assoc,
    consume_bind, consume_bind]
  split
  · simp only [if_true, bind_assoc, pure_bind, commaTargets, commaSeparated, afterCommas]
    rfl
  · rfl

theorem goes_moreTargets (reads : q.Reads Expression.written) {first : Expression}
    {v : Word} (rest : List Word) (noComma : v.isText "," = false) :
    Goes dialect (moreTargets q first) (v :: rest) (v :: rest) (· = [first]) := by
  refine (goes_many_end (shrinks_behind "," reads) (goes_behind_other noComma)).bind ?_
  rintro _ rfl
  exact goes_pure rfl

/-- The target before these is one, if more follow. -/
def IsStrict (viable : Prop) (first : Expression) (c : Cursor) : Prop :=
  viable → (Pattern.text ",").accepts c.current → first.isAssignable

/-- Targets behind the first one, or none where no comma stands. -/
def Conduct.moreTargets (viable : Prop) : Conduct (List Expression) :=
  { Conduct.targets viable with
    instead := fun w => w.isText "," = false, takes := False, enters := fun _ => False }

/-- The tokens between two places are these ones only. -/
theorem taken_unique {first second : List Token} {outcomes rest : List Outcome}
    (h : outcomes = first.map .ok ++ rest) (g : outcomes = second.map .ok ++ rest) :
    first = second := by
  have same := List.append_cancel_right (h.symm.trans g)
  exact List.map_injective_iff.mpr (fun _ _ => Except.ok.inj) same

/-- Behind the completion of a target nothing more has to be read. -/
theorem continues_moreTargets (h : ForeseesTarget dialect viable p q)
    {m : Conduct (List Expression)} (after : ∀ w, m.after w → (Conduct.targets viable).after w)
    (good : ∀ es, (Conduct.targets viable).good es → m.good es) :
    Continues dialect (moreTargets q) (fun a => a.isAssignable) [] Conduct.target.after m := by
  refine ⟨.nil, fun w stops => (after w stops).2, fun a isGood w rest stops => ?_⟩
  refine (goes_moreTargets h.reads' rest (after w stops).1).mono ?_
  rintro _ rfl
  exact good _ fun can => by simp [isGood]

/-- The targets up to the last one are foreseen if those behind each of them are. -/
theorem foresees_targets_of_more (h : ForeseesTarget dialect viable p q) {start : Cursor → Prop}
    (more : ∀ a, Foresees dialect viable
      (fun e => ∃ c, IsInput c.upcoming ∧ start c ∧ p c = .ok a e) (moreTargets p a)
      (moreTargets q a) (.moreTargets viable)) :
    Foresees dialect viable start (commaSeparated p) (commaSeparated q) (.targets viable) := by
  have last (m : Conduct Expression) : Continues dialect (moreTargets q) (fun a => a.isAssignable) []
      Conduct.target.after (Conduct.target.thenOf (.moreTargets viable)) :=
    continues_moreTargets h (fun w stops => stops.1) fun _ => id
  refine ((h.foresees.from fun _ _ => trivial).bind_of more
    (fun can c a e x g taken legible run _ took some => ?_) (fun can => ⟨[], last .target⟩)).mono
      ⟨fun w stops => ⟨stops, .inr ⟨stops.2, stops.1⟩⟩, fun _ _ => .inl (.inl trivial), fun _ => id,
        fun _ => .inl trivial, fun _ => id⟩
  obtain ⟨same, view, -, completes⟩ := h.completes legible run
  rw [taken_unique took.upcoming view]
  exact completes.bind (last .target)

/-- A name is a target. -/
theorem goes_targets (h : ForeseesTarget dialect viable p q) (can : viable) {name : Identifier}
    (proper : name.IsProper dialect) {v : Word} (rest : List Word)
    (stops : (Conduct.targets viable).after v) :
    Goes dialect (commaSeparated q) (name.word :: v :: rest) (v :: rest)
      (Conduct.targets viable).good :=
  (h.goes can name proper v rest stops.2).bind fun a isGood =>
    (continues_moreTargets h (fun _ => id) fun _ => id).goes a isGood v rest stops

theorem goes_commaTargets (h : ForeseesTarget dialect viable p q) (can : viable)
    {first : Expression} (assignable : viable → first.isAssignable) {v : Word} (rest : List Word)
    (stops : (Conduct.targets viable).after v) :
    Goes dialect (commaTargets q first) (someName :: v :: rest) (v :: rest)
      (Conduct.targets viable).good := by
  have proper : IsLexeme dialect someName := isProper_someName.whole.isLexeme
  refine (@goes_targets _ _ _ _ h can ⟨"x", ⟨0, 0⟩⟩ proper _ rest stops).bind fun others isGood =>
    goes_pure fun can => ?_
  rw [List.all_cons, assignable can]
  exact isGood can

/-- The targets behind the current token, which is a comma. -/
theorem foresees_passed_commaTargets (h : ForeseesTarget dialect viable p q) {first : Expression}
    {n : Nat} {t : Token} (more : t.isEnd = false) (assignable : viable → first.isAssignable)
    (ih : ∀ a, Foresees dialect viable (fun c => c.upcoming.length ≤ n ∧ IsStrict viable a c)
      (moreTargets p a) (moreTargets q a) (.moreTargets viable)) :
    Foresees dialect viable (fun c => c.upcoming.length ≤ n + 1 ∧ at' t c)
      (liftM Cursor.advance >>= fun _ => commaTargets p first)
      (liftM Cursor.advance >>= fun _ => commaTargets q first) (.targets viable) := by
  have words (can : viable) (those : Unit → Prop) :
      Continues dialect (fun _ => commaTargets q first) those [someName] (fun _ => True)
        (({ takes := True, enters := fun _ => True } : Conduct Unit).thenOf (.targets viable)) :=
    ⟨by simpa using isProper_someName, fun _ _ => trivial, fun _ _ w rest stops =>
      goes_commaTargets h can assignable rest stops.1⟩
  have comma : Foresees dialect viable (fun c => c.upcoming.length ≤ n + 1 ∧ at' t c)
      (liftM Cursor.advance) (liftM Cursor.advance) { takes := True, enters := fun _ => True } :=
    (foresees_advance _).from fun _ begins => inside_of_at more begins.2
  have listed : Foresees dialect viable (fun c => c.upcoming.length ≤ n) (commaSeparated p)
      (commaSeparated q) (.targets viable) := by
    refine foresees_targets_of_more h fun a => (ih a).from ?_
    rintro e ⟨c, input, le, run⟩
    obtain ⟨⟨tokens, -, passes⟩, -⟩ := h.reads input run
    refine ⟨?_, fun can => h.strict can run⟩
    have length := congrArg List.length passes.upcoming
    rw [List.length_append] at length
    omega
  have behind := listed.then_pure (f := fun others => first :: others)
    (Conduct.targets viable).good fun others isGood can => by
      rw [List.all_cons, assignable can]
      exact isGood can
  refine (comma.bind_of (fun _ => behind.from ?_)
    (fun can _ _ _ _ _ _ _ _ _ took some => took.completes_none some (words can _))
    (fun can => ⟨_, words can _⟩)).mono ⟨fun _ stops => ⟨stops, .inl trivial⟩,
      fun _ _ => .inl (.inl trivial), fun _ => id, fun _ => .inl trivial, fun _ _ => trivial⟩
  rintro e ⟨c, input, ⟨le, here⟩, run⟩
  have less := Cursor.length_lt_of_advance (liftM_ok.mp run) input (inside_of_at more here)
  omega

/-- Targets are foreseen up to a word that goes on with none of them. -/
theorem foresees_moreTargets (h : ForeseesTarget dialect viable p q) (first : Expression) :
    Foresees dialect viable (IsStrict viable first) (moreTargets p first) (moreTargets q first)
      (.moreTargets viable) := by
  refine foresees_by_length (IsStrict viable) (fun n ih first => ?_) first
  refine Foresees.congr ?_ (fun c input _ => moreTargets_eq h.reads first input)
    fun c input _ => moreTargets_eq h.reads' first input
  refine foresees_choice
    (fun t => if (Pattern.text ",").accepts t then
      liftM Cursor.advance >>= fun _ => commaTargets p first else pure [first])
    (fun t => if (Pattern.text ",").accepts t then
      liftM Cursor.advance >>= fun _ => commaTargets q first else pure [first])
    (pure [first]) (pure [first]) (consume_bind _ _) (consume_bind _ _)
    (fun c begins => ?_) fun _ t stops => if_neg (Bool.eq_false_iff.mp stops)
  by_cases comma : (Pattern.text ",").accepts c.current
  · left
    simp only [if_pos comma]
    exact ((foresees_passed_commaTargets h (isEnd_of_accepts comma) (fun can => begins.2 can comma)
      ih).from fun d there => ⟨there.1.1, there.2⟩).mono
        ⟨fun _ => id, fun _ _ => .inl trivial, fun _ => id, fun _ => trivial, fun _ => False.elim⟩
  · exact .inr ⟨if_neg comma, if_neg comma, foresees_pure _ id fun _ _ => id⟩

theorem foresees_targets (h : ForeseesTarget dialect viable p q) :
    Foresees dialect viable anywhere (commaSeparated p) (commaSeparated q) (.targets viable) := by
  refine foresees_targets_of_more h fun a => (foresees_moreTargets h a).from ?_
  rintro e ⟨c, -, -, run⟩ can
  exact h.strict can run

end Targets

end LuaFrontend
