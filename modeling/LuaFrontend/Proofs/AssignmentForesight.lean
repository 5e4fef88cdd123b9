import LuaFrontend.Proofs.StatementForesight

set_option autoImplicit false

namespace LuaFrontend

open LuaFrontend.Grammar
open LuaFrontend.Parser
open Outcome (IsInput)

variable {dialect : Dialect} {viable : Prop} {below : Below} {n : Nat} {p q : Parser Expression}

section Targets

/-- Behind the current token. -/
theorem Parser.Completes.passed {α : Type} {q : Parser α} {k : Conduct α} {taken : List Token}
    (t : Token) (h : Completes dialect q taken k) (some : taken ≠ []) :
    Completes dialect (liftM Cursor.advance >>= fun _ => q) (t :: taken) k := by
  obtain ⟨words, proper, goes⟩ := h
  refine ⟨words, proper, fun d tokens v rest stops faces spelled => ?_⟩
  obtain ⟨u, others, rfl⟩ := List.exists_cons_of_ne_nil some
  obtain ⟨e, moved, left⟩ := advance_of_faces faces
  rw [bind_eq_of_ok moved]
  exact goes stops left spelled

/-- Behind a comma more targets are completed. -/
theorem completes_moreTargets (reads : q.Reads Expression.written) {first : Expression} {d : Cursor}
    (comma : (Pattern.text ",").accepts d.current) (assignable : first.isAssignable)
    {taken : List Token} {rest : List Outcome} (some : taken ≠ [])
    (view : d.upcoming = (d.current :: taken).map .ok ++ rest)
    (h : Completes dialect (commaSeparated q) taken (.targets viable)) :
    Completes dialect (moreTargets q first) (d.current :: taken) (.targets viable) := by
  have behind : Completes dialect (commaTargets q first) taken (.targets viable) := by
    refine h.bind ⟨.nil, fun _ => id, fun as areGood w rest _ => goes_pure fun can => ?_⟩
    rw [List.all_cons, assignable]
    exact areGood can
  refine (behind.passed d.current some).of_current view (List.cons_ne_nil _ _) fun i input here => ?_
  rw [moreTargets_eq reads first input, takes, consume_bind, here, if_pos comma]
  rfl

/-- What has been read as targets can be completed to such. -/
theorem completes_targets (h : ForeseesTarget dialect viable p q) (can : viable) {c e : Cursor}
    {targets : List Expression} (legible : c.IsLegible dialect)
    (run : commaSeparated p c = .ok targets e) :
    ∃ taken : List Token, c.upcoming = taken.map .ok ++ e.upcoming ∧ taken ≠ [] ∧
      Completes dialect (commaSeparated q) taken (.targets viable) := by
  induction size : c.upcoming.length using Nat.strong_induction_on generalizing c targets with
  | _ n ih =>
    obtain ⟨first, d, ofFirst, others⟩ := bind_ok.mp run
    obtain ⟨taken, took⟩ := h.foresees.ok legible trivial ofFirst
    have further := legible.behind took.upcoming took.dialect_eq
    have more : taken ≠ [] := took.some (.inl trivial)
    change moreTargets p first d = _ at others
    rw [moreTargets_eq h.reads first further.input, takes, consume_bind] at others
    by_cases comma : (Pattern.text ",").accepts d.current
    · simp only [if_pos comma, if_true] at others
      obtain ⟨_, g, moved, others⟩ := bind_ok.mp others
      obtain ⟨targets, i, listed, result⟩ := bind_ok.mp others
      obtain ⟨rfl, rfl⟩ := pure_ok.mp result
      have passes :=
        Cursor.passes_of_advance (liftM_ok.mp moved) further.input (isEnd_of_accepts comma)
      have view : d.upcoming = [d.current].map .ok ++ g.upcoming := passes.upcoming
      have less : g.upcoming.length < n := by
        rw [← size, took.upcoming, view]
        simp
        omega
      obtain ⟨second, same, some, completes⟩ :=
        ih _ less (further.behind view (passes.dialect.trans further.dialect_eq)) listed rfl
      have whole : d.upcoming = (d.current :: second).map .ok ++ e.upcoming := by
        rw [view, same]
        rfl
      have extended := completes_moreTargets h.reads' comma (h.strict can ofFirst comma) some whole
        completes
      refine ⟨taken ++ d.current :: second, ?_, by simp, ?_⟩
      · rw [took.upcoming, whole, List.map_append, List.append_assoc]
      · exact took.completes_some whole (List.cons_ne_nil _ _) extended (fun _ => id) fun _ => id
    · simp only [if_neg comma] at others
      obtain ⟨rfl, rfl⟩ := pure_ok.mp others
      obtain ⟨same, view, -, completes⟩ := h.completes legible ofFirst
      rw [taken_unique view took.upcoming] at completes
      exact ⟨taken, took.upcoming, more,
        completes.bind (continues_moreTargets h (fun _ => id) fun _ => id)⟩

end Targets

section Assignments

/-- An assignment behind its targets. -/
def assign (below : Below) (targets : List Expression) : Parser Statement := do
  if targets.all (·.isAssignable) then
    expect "="
    return .assignment targets (← expressionList below)
  else unexpected

/-- What is made of targets. One alone may be a call. -/
def finish (below : Below) : List Expression → Parser Statement
  | [first] => do
    if (← get).hasText "=" then assign below [first]
    else if first.isCall then return .call first
    else unexpected
  | targets => assign below targets

theorem finish_one (below : Below) (first : Expression) (c : Cursor) :
    finish below [first] c = (if (Pattern.text "=").accepts c.current then assign below [first]
      else if first.isCall then return .call first else unexpected : Parser Statement) c :=
  rfl

/-- What follows the first target. -/
def afterTarget (below : Below) (first : Expression) : Parser Statement := do
  if (← get).matchesAny [.text ",", .text "="] then
    let targets := first :: (← afterCommas (target below))
    if targets.all (·.isAssignable) then
      expect "="
      return .assignment targets (← expressionList below)
    else unexpected
  else if first.isCall then return .call first
  else unexpected

theorem afterTarget_eq (reads : ReadsForms below) (first : Expression) {c : Cursor}
    (input : IsInput c.upcoming) :
    afterTarget below first c = (moreTargets (target below) first >>= finish below) c := by
  have split : afterTarget below first c =
      (if (Pattern.text ",").accepts c.current || (Pattern.text "=").accepts c.current then
        moreTargets (target below) first >>= assign below
      else if first.isCall then return .call first else unexpected : Parser Statement) c := by
    rw [afterTarget, get_bind, Cursor.matchesAny, List.any_cons, List.any_cons, List.any_nil,
      Bool.or_false, moreTargets, bind_assoc]
    simp only [pure_bind]
    rfl
  have more := moreTargets_eq (reads_target reads) first input
  rw [split]
  by_cases comma : (Pattern.text ",").accepts c.current
  · rw [if_pos (by rw [comma, Bool.true_or]), bind_eq_of_eq more, bind_eq_of_eq more]
    simp only [takes, bind_assoc, consume_bind, if_pos comma, commaTargets, commaSeparated,
      pure_bind, if_true]
    rfl
  · have one (f : List Expression → Parser Statement) :
        (moreTargets (target below) first >>= f) c = f [first] c := by
      rw [bind_eq_of_eq more, takes, bind_assoc, consume_bind, if_neg comma]
      rfl
    rw [one, finish_one, Bool.eq_false_iff.mpr comma, Bool.false_or]
    split
    · exact one _
    · rfl

theorem assignmentOrCall_eq (reads : ReadsForms below) {c : Cursor} (input : IsInput c.upcoming) :
    assignmentOrCall below c = Parser.production .assignmentOrCall
      (commaSeparated (target below) >>= finish below) c := by
  have body (d : Cursor) (input : IsInput d.upcoming) :
      (target below >>= afterTarget below) d =
        (commaSeparated (target below) >>= finish below) d := by
    cases run : target below d with
    | error x e => rw [bind_eq_of_error run, commaSeparated, bind_assoc, bind_eq_of_error run]
    | ok first e =>
      rw [bind_eq_of_ok run, commaSeparated, bind_assoc, bind_eq_of_ok run]
      obtain ⟨⟨tokens, -, passes⟩, -⟩ := reads_target reads input run
      exact afterTarget_eq reads first (passes.input input)
  change Parser.production .assignmentOrCall (target below >>= afterTarget below) c = _
  unfold Parser.production
  rw [body (c.record (.enter .assignmentOrCall)) input]


/-- The words that complete an assignment behind its targets. -/
def assigned : List Word := [.sign "=", Word.nilWord]

theorem proper_assigned : Proper dialect assigned := by
  simpa [assigned] using ⟨isProper_sign (by decide), Word.isProper_nilWord⟩

theorem foretells_values (h : ForeseesForms dialect viable below n) (targets : List Expression) :
    Foretells dialect viable
      (do expect "="; return .assignment targets (← expressionList below))
      (do expect "="; return .assignment targets (← expressionList (levels n)))
      { Conduct.statement with words := assigned } := by
  have made := (foretells_expressionList h).then_pure (f := Statement.assignment targets)
    (fun _ => True) fun _ _ => trivial
  exact ((foretells_sign "=" (by decide)).behind fun _ => made).mono ⟨fun w stops =>
    ⟨⟨Word.isText_of_closesBlock stops (by decide), Word.closes_of_closesBlock stops⟩, .inl trivial⟩,
    fun _ _ => .inl trivial, fun _ => id, id, fun _ => id⟩ rfl

theorem foresees_assign (h : ForeseesForms dialect viable below n) (targets : List Expression) :
    Foresees dialect viable anywhere (assign below targets) (assign (levels n) targets)
      .statement := by
  unfold assign
  split
  · exact (foretells_values h targets).foresees.mono ⟨fun _ => id, fun _ _ => .inl trivial,
      fun _ => id, id, fun _ => id⟩
  · exact foresees_unexpected fun _ _ => id

theorem goes_assign (h : ForeseesForms dialect viable below n) (can : viable) {v : Word}
    (rest : List Word) (stops : v.closesBlock) {targets : List Expression}
    (assignable : targets.all (·.isAssignable)) :
    Goes dialect (assign (levels n) targets) (assigned ++ v :: rest) (v :: rest) fun _ => True := by
  rw [assign, if_pos assignable]
  exact ((foretells_values h targets).feeds can).goes v rest stops

theorem foresees_finish (h : ForeseesForms dialect viable below n) (targets : List Expression) :
    Foresees dialect viable anywhere (finish below targets) (finish (levels n) targets)
      { after := fun w => w.closesBlock, instead := fun w => w.closesBlock } := by
  have several : Foresees dialect viable anywhere (assign below targets) (assign (levels n) targets)
      { after := fun w => w.closesBlock, instead := fun w => w.closesBlock } :=
    (foresees_assign h targets).mono ⟨fun _ => id, fun _ _ => .inl trivial, fun _ => id, False.elim,
      fun _ => id⟩
  match targets with
  | [] => exact several
  | _ :: _ :: _ => exact several
  | [first] =>
    refine foresees_if ((Pattern.text "=").accepts ·) (fun _ => assign below [first])
      (fun _ => assign (levels n) [first]) (finish_one below first) (finish_one (levels n) first)
      (fun t equals => ?_) ?_ fun _ t stops => ?_
    · exact ((foresees_assign h [first]).from fun _ _ => trivial).mono ⟨fun _ => id,
        fun _ _ => .inl trivial, fun _ => id, id, fun _ => id⟩
    · split
      · exact foresees_pure _ id fun _ _ => id
      · exact foresees_unexpected fun _ _ => id
    · exact Bool.eq_false_iff.mp (Word.isText_of_closesBlock stops (by decide))

theorem goes_finish (h : ForeseesForms dialect viable below n) (can : viable) {v : Word}
    (rest : List Word) (stops : v.closesBlock) {targets : List Expression}
    (assignable : targets.all (·.isAssignable)) :
    Goes dialect (finish (levels n) targets) (assigned ++ v :: rest) (v :: rest) fun _ => True := by
  have several := goes_assign h can rest stops assignable
  match targets with
  | [] => exact several
  | _ :: _ :: _ => exact several
  | [first] =>
    refine goes_get fun c offers => ?_
    rw [offers.hasText]
    exact several

theorem foresees_assignmentOrCall (h : ForeseesForms dialect viable below n)
    (strict : viable → ∀ ⦃c a e⦄, below .suffixed c = .ok (some a) e →
      (Pattern.text ",").accepts e.current → a.isAssignable) :
    Foresees dialect viable anywhere (assignmentOrCall below) (assignmentOrCall (levels n))
      { Conduct.statement with enters := (·.kind = .identifier) } := by
  have targets := foreseesTarget h strict
  have last (can : viable) : Continues dialect (finish (levels n)) (Conduct.targets viable).good
      assigned (Conduct.targets viable).after ((Conduct.targets viable).thenOf
        { after := fun w => w.closesBlock, instead := fun w => w.closesBlock }) := by
    exact ⟨proper_assigned, fun _ _ => ⟨rfl, rfl⟩, fun targets assignable w rest stops =>
      goes_finish h can rest stops.1 (assignable can)⟩
  have whole := (foresees_targets targets).bind_of (fun ts => (foresees_finish h ts).from fun _ _ => trivial)
    (fun can c a e x g taken legible run _ took _ => ?_) fun can => ⟨assigned, last can⟩
  · refine Foresees.congr ?_ (fun c input _ => assignmentOrCall_eq h.reads input)
      fun c input _ => assignmentOrCall_eq (reads_levels n) input
    refine foresees_production _ (whole.mono ⟨fun w stops => ⟨stops, .inr ⟨⟨?_, ?_⟩, stops⟩⟩,
      fun _ _ => .inl (.inl trivial), fun _ => id, fun _ => .inl trivial, fun _ => id⟩) fun _ _ _ => trivial
    · exact Word.isText_of_closesBlock stops (by decide)
    · exact Word.isSuffix_of_closesBlock stops
  · obtain ⟨same, view, -, completes⟩ := completes_targets targets can legible run
    rw [taken_unique took.upcoming view]
    exact completes.bind (last can)

end Assignments

end LuaFrontend
