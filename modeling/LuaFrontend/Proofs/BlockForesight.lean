import LuaFrontend.Proofs.AssignmentForesight

set_option autoImplicit false

namespace LuaFrontend

open LuaFrontend.Grammar
open LuaFrontend.Parser
open Outcome (IsInput)

/-- What has been read and stands before a comma can be assigned to. -/
def Grammar.ChecksTargets (below : Below) : Prop :=
  ∀ ⦃c a e⦄, below .suffixed c = .ok (some a) e → (Pattern.text ",").accepts e.current →
    a.isAssignable

variable {dialect : Dialect} {viable : Prop} {below : Below} {n : Nat} {t : Token}

section Jumps

theorem length_of_goto {c e : Cursor} {s : Statement} (input : IsInput c.upcoming)
    (more : c.current.isEnd = false) (run : goto c = .ok s e) :
    e.upcoming.length + 1 < c.upcoming.length := by
  obtain ⟨f, body, rfl⟩ := production_ok.mp run
  obtain ⟨_, d, moved, run⟩ := bind_ok.mp body
  obtain ⟨name, g, named, result⟩ := bind_ok.mp run
  obtain ⟨-, rfl⟩ := pure_ok.mp result
  have passes := Cursor.passes_of_advance (liftM_ok.mp moved)
    (c := c.record (.enter .goto)) input more
  have first := Cursor.length_lt_of_advance (liftM_ok.mp moved)
    (c := c.record (.enter .goto)) input more
  have second := (reads_identifier (passes.input input) named).length_lt
    fun ⟨_, same, _⟩ => List.cons_ne_nil _ _ same.symm
  change f.upcoming.length + 1 < (c.record (.enter .goto)).upcoming.length
  omega

/-- The name is a jump before a name, if the dialect has jumps. -/
theorem isJump_eq {yes no : Parser Statement} (c : Cursor) (same : c.dialect = dialect) :
    (do if ← isJump then yes else no) c =
      (if dialect.labels then ifNext (.kind .identifier) yes no else no : Parser Statement) c := by
  rw [isJump, bind_assoc, get_bind, same]
  split <;> rfl

/-- A name that is assigned to. -/
theorem goes_assignment (h : ForeseesForms dialect viable below n)
    (strict : viable → ChecksTargets below) (can : viable) {name : Identifier}
    (proper : name.IsProper dialect) {v : Word} (rest : List Word) (stops : v.closesBlock) :
    Goes dialect (assignmentOrCall (levels n)) (name.word :: (assigned ++ v :: rest)) (v :: rest)
      fun _ => True := by
  intro c offers
  rw [assignmentOrCall_eq (reads_levels n) offers.input]
  have targets : Goes dialect (commaSeparated (target (levels n)))
      (name.word :: (assigned ++ v :: rest)) _ _ :=
    goes_targets (foreseesTarget h strict) can proper _ ⟨rfl, rfl⟩
  exact goes_production (targets.bind fun ts assignable =>
    goes_finish h can rest stops (assignable can)) offers

theorem foresees_gotoName (h : ForeseesForms dialect viable below n)
    (strict : viable → ChecksTargets below) (named : Heading.ofToken t = .gotoName) :
    Foresees dialect viable (at' t)
      (do if ← isJump then goto else assignmentOrCall below)
      (do if ← isJump then goto else assignmentOrCall (levels n)) .statement := by
  have kind : t.kind = .identifier := (text_of_gotoName named).2
  have more : t.isEnd = false := inside_of_kind kind (by decide)
  have assigns := foresees_assignmentOrCall h strict
  have jumps : Foresees dialect viable (at' t) goto goto
      { Conduct.statement with enters := (·.kind = .identifier) } :=
    (foresees_goto more).mono ⟨fun _ => id, fun _ _ => .inl trivial, fun _ => id, id,
      fun _ _ => trivial⟩
  refine Foresees.congr ?_ (fun c _ => isJump_eq c) fun c _ => isJump_eq c
  split
  · refine (foresees_ifNext more (jumps.from fun _ start => start.1)
      (assigns.from fun _ _ => trivial) kind ?_ ?_ ?_).mono
        ⟨fun _ => id, fun _ _ => .inl trivial, fun _ => id, fun _ => trivial, fun _ => False.elim⟩
    · rintro c a e input rfl - run
      exact length_of_goto input more run
    · intro u stops
      refine beq_eq_false_iff_ne.mpr fun name => ?_
      rcases Word.kind_of_closesBlock stops with other | other <;> cases name.symm.trans other
    · intro can whole
      refine Completes.of_goes proper_assigned fun v rest stops => ?_
      obtain ⟨name, spelled⟩ : ∃ name : Identifier, t.spelling = name.word :=
        ⟨.ofToken t, Prod.ext kind rfl⟩
      have proper : name.IsProper dialect := (spelled ▸ whole).isLexeme
      have noName : Goes dialect (liftM (Cursor.nextMatchesAny [.kind .identifier]))
          (name.word :: (assigned ++ v :: rest)) (name.word :: (assigned ++ v :: rest))
          (· = false) :=
        goes_nextMatchesAny rfl fun _ => rfl
      rw [List.map_singleton, spelled]
      exact noName.no (goes_assignment h strict can proper rest stops)
  · exact (assigns.from fun _ _ => trivial).mono ⟨fun _ => id, fun _ _ => .inl trivial, fun _ => id, id, fun _ => False.elim⟩

end Jumps

section Statements

/-- At a token that is not the last one, it can be used that the token is read whole. -/
theorem Parser.Foresees.of_whole {α : Type} {p q : Parser α} {k : Conduct α} (more : t.isEnd = false)
    (h : Word.IsWhole dialect t.spelling → Foresees dialect viable (at' t) p q k) :
    Foresees dialect viable (at' t) p q k where
  ok c a e legible here run := by
    refine (h (legible.whole t ?_ more)).ok legible here run
    exact here ▸ List.mem_cons_self
  error c x e legible here run := by
    refine (h (legible.whole t ?_ more)).error legible here run
    exact here ▸ List.mem_cons_self

theorem spelling_of_label (h : Heading.ofToken t = .label) : t.spelling = Word.sign "::" := by
  rcases heading_cases t with other | ⟨entry, -⟩ | ⟨-, symbol, text⟩ | ⟨other, -⟩
  · simp [h] at other
  · simp [h, headings] at entry
  · exact Prod.ext symbol text
  · simp [h] at other

theorem foresees_breakLoop (more : t.isEnd = false) : Foresees dialect viable (at' t)
    (do Cursor.advance; return .breakLoop) (do Cursor.advance; return .breakLoop) .statement := by
  have done : Foretells dialect viable (pure Statement.breakLoop) (pure Statement.breakLoop) {} :=
    foretells_pure trivial
  exact done.passed (k := .statement) more (fun _ _ => ⟨trivial, .inr trivial⟩) fun _ _ => trivial

theorem foresees_statement (h : ForeseesForms dialect viable below n)
    (strict : viable → ChecksTargets below) :
    Foresees dialect viable inside (statement below) (statement (levels n)) .statement := by
  have assigns : Foresees dialect viable anywhere (assignmentOrCall below)
      (assignmentOrCall (levels n)) .statement :=
    (foresees_assignmentOrCall h strict).mono ⟨fun _ => id, fun _ _ => .inl trivial, fun _ => id, id,
      fun _ => False.elim⟩
  refine foresees_production _ (foresees_current trivial fun t => ?_) fun _ _ begins => begins
  by_cases more : t.isEnd = false
  · refine Foresees.from ?_ fun c begins => begins.2
    cases heading : Heading.ofToken t with
    | localDeclaration => exact foresees_localDeclaration h more
    | conditional => exact foresees_conditional h more
    | function => exact foresees_functionStatement h more
    | whileLoop => exact foresees_whileLoop h more
    | forLoop => exact foresees_forLoop h more
    | repeatLoop => exact foresees_repeatLoop h more
    | doBlock => exact foresees_doBlock h
    | goto => exact (foresees_goto more).mono ⟨fun _ => id, fun _ _ => .inl trivial, fun _ => id, id, fun _ => False.elim⟩
    | breakLoop => exact foresees_breakLoop more
    | label =>
      refine .of_whole more fun whole => foresees_label more ?_
      exact ⟨spelling_of_label heading ▸ whole, by decide⟩
    | gotoName => exact foresees_gotoName h strict heading
    | assignmentOrCall => exact assigns.from fun _ _ => trivial
  · exact foresees_nowhere fun c ⟨inside, here⟩ => more (here ▸ inside)

end Statements

section Blocks

/-- A word that ends a block is neither in it nor a semicolon. -/
theorem isInBlock_eq_false (h : Word.closesBlock t.spelling) : isInBlock t = false := by
  have same : isInBlock t = !Word.closesBlock t.spelling := Word.isInBlock_token t.spelling t.start
  rw [same, h]
  rfl

theorem returnedValues_eq (below : Below) (c : Cursor) : returnedValues below c =
    (if isInBlock c.current && !(Pattern.text ";").accepts c.current then expressionList below
      else return [] : Parser (List Expression)) c :=
  rfl

theorem foretells_returnedValues (h : ForeseesForms dialect viable below n) :
    Foretells dialect viable (returnedValues below) (returnedValues (levels n))
      { after := fun w => w.closesBlock, instead := fun w => w.closesBlock } where
  foresees := by
    refine foresees_if (fun t => isInBlock t && !(Pattern.text ";").accepts t)
      (fun _ => expressionList below) (fun _ => expressionList (levels n)) (returnedValues_eq below)
      (returnedValues_eq (levels n)) (fun t _ => ?_) (foresees_pure _ id fun _ _ => id)
      fun _ t stops => by simp [isInBlock_eq_false stops]
    refine ((foretells_expressionList h).foresees.from fun _ _ => trivial).mono ⟨fun w stops => ?_,
      fun _ _ => .inl trivial, fun _ => id, id, fun _ => False.elim⟩
    exact ⟨Word.isText_of_closesBlock stops (by decide), Word.closes_of_closesBlock stops⟩
  feeds _ := by
    refine ⟨.nil, fun w rest stops => goes_current fun start => goes_get fun c offers => ?_⟩
    rw [Word.isInBlock_token, stops]
    exact goes_pure trivial

theorem foresees_returning (h : ForeseesForms dialect viable below n) (more : t.isEnd = false) :
    Foresees dialect viable (at' t) (returning below) (returning (levels n)) .statement := by
  have semicolon : Foretells dialect viable (takes ";") (takes ";")
      { after := fun w => w.closesBlock, instead := fun w => w.closesBlock } := by
    have noSign (w : Word) (ends : w.closesBlock) : w.isText ";" = false :=
      Word.isText_of_closesBlock ends (by decide)
    exact ⟨(foresees_takes ";").mono ⟨fun _ _ => trivial, fun w ends => .inr (noSign w ends),
      fun _ => False.elim, id, fun _ => id⟩, fun _ => ⟨.nil, fun w rest ends =>
        (goes_takes_other (noSign w ends)).mono fun _ _ => trivial⟩⟩
  have behind := (foretells_returnedValues h).bind (fun values =>
    (foretells_discard semicolon).then_pure (f := fun _ => Statement.returning values)
      (fun _ => True) fun _ _ => trivial) fun _ stops => stops.1
  exact foresees_behindFirst _ more behind fun _ stops =>
    ⟨⟨stops, .inr ⟨stops, stops⟩⟩, .inr (.inr (.inr ⟨stops, stops⟩))⟩

theorem foretells_semicolons : Foretells dialect viable (discard (many (behind ";" (pure ()))))
    (discard (many (behind ";" (pure ()))))
    { after := fun w => w.isText ";" = false, instead := fun w => w.isText ";" = false } := by
  have shrinks : Shrinks (behind ";" (pure ())) := shrinks_behind ";" reads_nothing
  have nothing : Foretells dialect viable (pure ()) (pure ()) {} := foretells_pure trivial
  refine foretells_discard (foretells_many _ (foretells_behind ";" nothing).foresees
    (fun _ ends => ⟨ends, trivial, .inr trivial⟩) (fun _ => id) shrinks shrinks
    fun _ v rest ends => goes_behind_other ends)

/-- The statement that begins here. A `return` and the end of the block are none. -/
def statementHere? (below : Below) : Parser (Option Statement) := do
  let token ← current
  if isInBlock token && !token.isWord "return" then return some (← statement below)
  else return none

theorem foretells_statementHere? (h : ForeseesForms dialect viable below n)
    (strict : viable → ChecksTargets below) :
    Foretells dialect viable (statementHere? below) (statementHere? (levels n))
      { after := fun w => w.closesBlock, instead := fun w => w.closesBlock } where
  foresees := by
    refine foresees_if (fun t => isInBlock t && !t.isWord "return")
      (fun _ => statement below >>= fun s => pure (some s))
      (fun _ => statement (levels n) >>= fun s => pure (some s)) (fun _ => rfl) (fun _ => rfl)
      (fun t begins => ?_) (foresees_pure _ id fun _ _ => id)
      fun _ t stops => by simp [isInBlock_eq_false (t := t) stops]
    have more : t.isEnd = false := by
      simp only [isInBlock, Bool.and_eq_true, Bool.not_eq_true'] at begins
      exact begins.1.1
    exact ((foresees_statement h strict).then_pure (f := some) (fun _ => True)
      fun _ _ => trivial).from fun _ => inside_of_at more
  feeds _ := by
    refine ⟨.nil, fun w rest stops => goes_current fun start => ?_⟩
    rw [Word.isInBlock_token, stops]
    exact goes_pure trivial

theorem foresees_statement? (h : ForeseesForms dialect viable below n)
    (strict : viable → ChecksTargets below) :
    Foresees dialect viable anywhere (statement? below) (statement? (levels n))
      { after := fun w => w.closesBlock, instead := fun w => w.closesBlock } := by
  have noSign (w : Word) (ends : w.closesBlock) : w.isText ";" = false :=
    Word.isText_of_closesBlock ends (by decide)
  exact (foretells_semicolons.foresees.bind (fun _ => foretells_statementHere? h strict)
    fun w ends => noSign w ends.1).mono ⟨fun w ends => ⟨ends, .inr ⟨noSign w ends, ends⟩⟩,
      fun w ends => .inr (.inr (.inr ⟨noSign w ends, ends⟩)), fun _ => id, False.elim,
      fun _ => False.elim⟩

/-- The end of a block behind its other statements. -/
def lastStatement (below : Below) (statements : List Statement) : Parser Block := do
  if (← current).isWord "return" then return statements ++ [← returning below]
  else return statements

theorem foretells_lastStatement (h : ForeseesForms dialect viable below n)
    (statements : List Statement) :
    Foretells dialect viable (lastStatement below statements) (lastStatement (levels n) statements)
      .block where
  foresees := by
    refine foresees_if (·.isWord "return")
      (fun _ => returning below >>= fun s => pure (statements ++ [s]))
      (fun _ => returning (levels n) >>= fun s => pure (statements ++ [s])) (fun _ => rfl)
      (fun _ => rfl) (fun t begins => ?_) (foresees_pure _ id fun _ _ => id) fun _ t stops => ?_
    · exact (foresees_returning h (isEnd_of_accepts (accepts_of_isWord begins))).then_pure
        (fun _ => True) fun _ _ => trivial
    · exact Bool.eq_false_iff.mp
        (Word.isWord_eq_false (Word.isText_of_closesBlock stops (by decide)))
  feeds _ := by
    refine ⟨.nil, fun w rest stops => goes_current fun start => ?_⟩
    rw [Word.isWord_eq_false (Word.isText_of_closesBlock stops (by decide))]
    exact goes_pure trivial

theorem foretells_blockBody (h : ForeseesForms dialect viable below n)
    (strict : viable → ChecksTargets below) :
    Foretells dialect viable (block below) (block (levels n)) .block := by
  have statements : Foretells dialect viable (many (statement? below))
      (many (statement? (levels n)))
      { after := fun w => w.closesBlock, instead := fun w => w.closesBlock } :=
    foretells_many _ (foresees_statement? h strict) (fun _ => id) (fun _ => id)
      (shrinks_statement? h.reads) (shrinks_statement? (reads_levels n))
      fun _ v rest ends => goes_statement?_end (levels n) 0 (.inl ends)
  exact foretells_production _ ((statements.bind (foretells_lastStatement h)
    fun _ ends => ends.1).mono ⟨fun w ends => ⟨ends, .inr ⟨ends, ends⟩⟩,
      fun w ends => .inr (.inr (.inr ⟨ends, ends⟩)), fun _ => id, False.elim, fun _ => False.elim⟩ rfl)

end Blocks

end LuaFrontend
