import LuaFrontend.Proofs.FirstError
import LuaFrontend.Proofs.ViablePrefix

set_option autoImplicit false

namespace LuaFrontend

open LuaFrontend.Grammar
open LuaFrontend.Parser
open Outcome (IsInput)

namespace Parser

variable {α β γ : Type} {c d : Cursor}

/-- A list is its first part and the rest of the list, if a comma is here. -/
theorem afterCommas_bind_eq {item : Parser α} (shrinks : Shrinks (behind "," item))
    (input : IsInput c.upcoming) (f : List α → Parser β) :
    (afterCommas item >>= f) c = (do
      if ← takes "," then
        let first ← item
        let others ← afterCommas item
        f (first :: others)
      else f [] : Parser β) c := by
  rw [afterCommas, bind_eq_of_eq (many_eq shrinks input), behind]
  simp only [bind_assoc]
  refine congrFun (congrArg (takes "," >>= ·) (funext fun taken => ?_)) c
  cases taken with
  | true => simp only [if_true, bind_assoc, pure_bind]
  | false => rfl

/-- An unexpected token is the same fault whatever was to be read. -/
theorem error_of_bind_unexpected (p : Parser γ) (c : Cursor) :
    ∃ x d e, (p >>= fun _ => (unexpected : Parser α)) c = .error x d ∧
      (p >>= fun _ => (unexpected : Parser β)) c = .error x e := by
  cases run : p c with
  | error x d => exact ⟨x, d, d, bind_eq_of_error run, bind_eq_of_error run⟩
  | ok a d =>
    obtain ⟨e, first⟩ := unexpected_eq α (c := d) rfl
    obtain ⟨f, second⟩ := unexpected_eq β (c := d) rfl
    exact ⟨_, e, f, (bind_eq_of_ok run).trans first, (bind_eq_of_ok run).trans second⟩

end Parser

/-- From the comma behind a target that cannot be assigned to: the rest of the list is read, and the
list is refused. -/
def Grammar.refuseList (below : Below) : Parser Unit := do
  let _ ← afterCommas (target below)
  unexpected

namespace RunRelation

/-- Tokens are taken, and nothing is switched on or off. -/
def proceeds : RunRelation where
  leads c d := (∃ tokens : List Token, c.upcoming = tokens.map .ok ++ d.upcoming) ∧
    d.dialect = c.dialect
  fails _ _ _ := True

theorem leads_of_passes {c d : Cursor} {tokens : List Token} (h : c.Passes tokens d) :
    proceeds.leads c d :=
  ⟨⟨tokens, h.upcoming⟩, h.dialect⟩

theorem isLaw_proceeds : proceeds.IsLaw where
  refl c := leads_of_passes (.refl c)
  trans := by
    rintro c d e ⟨⟨first, h⟩, same⟩ ⟨⟨second, g⟩, alsoSame⟩
    exact ⟨⟨first ++ second, by rw [h, g, List.map_append, List.append_assoc]⟩,
      alsoSame.trans same⟩
  trans_fails _ _ := trivial
  next c := by
    change proceeds.Result c (act Cursor.next c)
    unfold act
    rcases Cursor.next_cases c with ⟨d, run, passes, -⟩ | ⟨t, rest, d, run, passes, -⟩ |
      ⟨e, rest, d, run, -⟩ <;> rw [run]
    · exact leads_of_passes passes
    · exact leads_of_passes passes
    · trivial
  advance c := by
    change proceeds.Result c (act Cursor.advance c)
    unfold act
    rcases Cursor.advance_cases c with ⟨d, run, passes, -⟩ | ⟨t, rest, d, run, passes, -⟩ |
      ⟨e, rest, d, run, -⟩ <;> rw [run]
    · exact leads_of_passes passes
    · exact leads_of_passes passes
    · trivial
  takeComments _ := ⟨⟨[], rfl⟩, rfl⟩
  failHere _ _ := trivial
  unexpected {α} c := by
    obtain ⟨e, fails⟩ := unexpected_eq α (c := c) rfl
    rw [fails]
    trivial
  production p body h c := by
    have inside := h (c.record (.enter p))
    unfold Parser.production
    cases run : body (c.record (.enter p)) with
    | ok a d =>
      rw [run] at inside
      exact inside
    | error x d => trivial

end RunRelation

open RunRelation (meetsErrors isLaw_meetsErrors proceeds isLaw_proceeds)

section Comparison

variable {α β : Type} {limit k : Nat} {c d : Cursor}

/-- Further on a target is followed by a comma and cannot be assigned to. The stricter reading
reports the comma; the other one reports what it meets behind it. -/
def Cursor.IsOverlooked (limit : Nat) (c : Cursor) (early late : Error) : Prop :=
  ∃ depth < limit, ∃ (d e : Cursor) (rest : List Outcome), proceeds.leads c d ∧
    d.upcoming = .ok d.current :: rest ∧ d.hasText "," ∧
    early = (SyntaxFault.unexpected d.current.kind d.current.text).report d.current rest ∧
    refuseList (levels depth) d = .error late e

/-- The results of two readings, of which the second is the stricter one. -/
inductive Cursor.Compares (limit : Nat) (c : Cursor) :
    EStateM.Result Error Cursor α → EStateM.Result Error Cursor α → Prop
  | ok {a : α} {d : Cursor} : proceeds.leads c d → c.Compares limit (.ok a d) (.ok a d)
  | error {x : Error} {d : Cursor} : c.Compares limit (.error x d) (.error x d)
  | overlooked {early late : Error} {d e : Cursor} : c.IsOverlooked limit early late →
    c.Compares limit (.error late d) (.error early e)

namespace Cursor.Compares

/-- A parser compares with itself. -/
theorem refl {p : Parser α} (h : proceeds.Holds p) (c : Cursor) :
    c.Compares limit (p c) (p c) := by
  have result := h c
  cases run : p c with
  | ok a d =>
    rw [run] at result
    exact .ok result
  | error x d => exact .error

theorem behind {r s : EStateM.Result Error Cursor α} (leads : proceeds.leads c d)
    (h : d.Compares limit r s) : c.Compares limit r s := by
  cases h with
  | ok further => exact .ok (isLaw_proceeds.trans leads further)
  | error => exact .error
  | overlooked found =>
    obtain ⟨depth, less, e, f, rest, further, others⟩ := found
    exact .overlooked ⟨depth, less, e, f, rest, isLaw_proceeds.trans leads further, others⟩

theorem bind {p q : Parser α} {f g : α → Parser β} (h : c.Compares limit (p c) (q c))
    (next : ∀ a d, p c = .ok a d → proceeds.leads c d → d.Compares limit (f a d) (g a d)) :
    c.Compares limit ((p >>= f) c) ((q >>= g) c) := by
  generalize first : p c = r at h
  generalize second : q c = s at h
  cases h with
  | ok leads =>
    rw [bind_eq_of_ok first, bind_eq_of_ok second]
    exact (next _ _ first leads).behind leads
  | error =>
    rw [bind_eq_of_error first, bind_eq_of_error second]
    exact .error
  | overlooked found =>
    rw [bind_eq_of_error first, bind_eq_of_error second]
    exact .overlooked found

end Cursor.Compares

theorem isInput_of_leads (leads : proceeds.leads c d) (input : IsInput c.upcoming) :
    IsInput d.upcoming := by
  obtain ⟨⟨tokens, view⟩, -⟩ := leads
  rw [view] at input
  exact input.of_append (List.cons_ne_nil _ _)

/-- Two parsers of which the second is the stricter one. -/
def ParserRelation.stricter (limit : Nat) : ParserRelation where
  Relates _ p q := ∀ c : Cursor, IsInput c.upcoming → c.Compares limit (p c) (q c)

open ParserRelation (stricter)

theorem ParserRelation.isLaw_stricter (limit : Nat) : (stricter limit).IsLaw where
  mono _ h := h
  pure _ c _ := .ok (isLaw_proceeds.refl c)
  bind h next c input := (h c input).bind fun a d _ leads => next a d (isInput_of_leads leads input)
  look _ _ h c := h c.current c.dialect c.ahead.length c
  next c _ := .refl isLaw_proceeds.next c
  advance c _ := .refl isLaw_proceeds.advance c
  takeComments c _ := .refl isLaw_proceeds.takeComments c
  failHere fault c _ := .refl (isLaw_proceeds.failHere fault) c
  unexpected c _ := .refl isLaw_proceeds.unexpected c
  production production p q h c input := by
    have inside := h (c.record (.enter production)) input
    unfold Parser.production
    generalize p (c.record (.enter production)) = r at inside ⊢
    generalize q (c.record (.enter production)) = s at inside ⊢
    cases inside with
    | ok leads => exact .ok leads
    | error => exact .error
    | overlooked found => exact .overlooked found

end Comparison

section Targets

open ParserRelation (stricter isLaw_stricter)

variable {β : Type} {limit depth k : Nat} {c : Cursor}

/-- A target is the same in both readings, unless it cannot be assigned to and a comma follows. Then
the stricter one has failed, and the other has to fail behind the list. -/
theorem compares_target_bind (less : depth < limit)
    (h : (stricter limit).Relates k (levels depth .suffixed) (checkedLevels depth .suffixed))
    {f g : Expression → Parser β} (input : IsInput c.upcoming)
    (goes : ∀ e d, target (levels depth) c = .ok e d → d.Compares limit (f e d) (g e d))
    (refuses : ∀ e d, e.isAssignable = false → d.hasText "," →
      ∃ x i j, f e d = .error x i ∧ refuseList (levels depth) d = .error x j) :
    c.Compares limit ((target (levels depth) >>= f) c)
      ((target (checkingTargets (checkedLevels depth)) >>= g) c) := by
  simp only [target, checkingTargets, bind_assoc]
  refine (h c input).bind fun found d run leads => ?_
  cases found with
  | none =>
    obtain ⟨i, fails⟩ := unexpected_eq Expression (c := d) rfl
    have check : checkTarget none d = .ok none d := rfl
    rw [bind_eq_of_error fails, bind_eq_of_ok check, bind_eq_of_error fails]
    exact .error
  | some e =>
    have plain : target (levels depth) c = .ok e d := bind_eq_of_ok run
    by_cases refused : d.hasText "," && !e.isAssignable
    · obtain ⟨comma, other⟩ := Bool.and_eq_true_iff.mp refused
      obtain ⟨i, fails⟩ := unexpected_eq (Option Expression) (c := d) rfl
      have check : checkTarget (some e) d = (unexpected : Parser (Option Expression)) d := by
        rw [checkTarget, get_bind, if_pos refused]
      obtain ⟨x, j, l, late, list⟩ := refuses e d (by simpa using other) comma
      rw [pure_bind, late, bind_eq_of_error (check.trans fails)]
      exact .overlooked ⟨depth, less, d, l, _, isLaw_proceeds.refl d, rfl, comma, rfl, list⟩
    · have check : checkTarget (some e) d = .ok (some e) d := by
        rw [checkTarget, get_bind, if_neg refused]
        rfl
      rw [pure_bind, bind_eq_of_ok check, pure_bind]
      exact goes e d plain

/-- So are the targets of a list, where a list with one that cannot be assigned to is refused. -/
theorem compares_targets_bind (less : depth < limit)
    (h : (stricter limit).Relates k (levels depth .suffixed) (checkedLevels depth .suffixed))
    {f g : List Expression → Parser β}
    (goes : ∀ list, (stricter limit).Relates k (f list) (g list))
    (refuses : ∀ list, list.all (·.isAssignable) = false → f list = unexpected) :
    (stricter limit).Relates k (afterCommas (target (levels depth)) >>= f)
      (afterCommas (target (checkingTargets (checkedLevels depth))) >>= g) := by
  intro c input
  have reads := reads_target (reads_levels depth)
  have shrinks := shrinks_behind "," reads
  have alsoShrinks :=
    shrinks_behind "," (reads_target (reads_checkingTargets (reads_checkedLevels depth)))
  induction size : c.upcoming.length using Nat.strong_induction_on generalizing c f g with
  | _ n ih =>
    rw [afterCommas_bind_eq shrinks input, afterCommas_bind_eq alsoShrinks input]
    have same : proceeds.Holds (takes ",") := isLaw_proceeds.ofParsers.takes (k := k) ","
    refine (Cursor.Compares.refl same c).bind fun taken d comma leads => ?_
    cases taken with
    | false => exact goes [] d (isInput_of_leads leads input)
    | true =>
      have comma := reads_of_takes input comma
      refine compares_target_bind less h comma.input (fun e i run => ?_) fun e i other _ => ?_
      · have first := reads comma.input run
        have shorter := comma.length_lt (by simp)
        have alsoShorter := first.length_lt (by simp)
        exact ih _ (by omega) (fun list => goes (e :: list))
          (fun list bad => refuses (e :: list) (by simp [bad])) i first.input rfl
      · have bad : (fun others => f (e :: others)) = fun _ => unexpected :=
          funext fun others => refuses (e :: others) (by simp [other])
        rw [bad]
        exact error_of_bind_unexpected _ i

/-- So are assignments and calls. -/
theorem compares_assignmentOrCall (less : depth < limit)
    (h : ∀ form, (stricter limit).Relates k (levels depth form) (checkedLevels depth form)) :
    (stricter limit).Relates (k + 2) (assignmentOrCall (levels depth))
      (assignmentOrCall (checkingTargets (checkedLevels depth))) := by
  have law := isLaw_stricter limit
  have reads := reads_target (reads_levels depth)
  refine law.production _ fun c input => ?_
  refine compares_target_bind less (h .suffixed) input (fun e d run => ?_) fun e d other comma => ?_
  · refine (?_ : (stricter limit).Relates (k + 1) _ _) d (reads input run).input
    refine law.asks (fun t _ => [.text ",", .text "="].any fun p : Pattern => p.accepts t)
      (fun _ => rfl) ?_ (ParserRelation.IsLaw.ite (law.pure _) law.unexpected)
    refine compares_targets_bind less (law.up (h .suffixed)) (fun list => ?_) fun list bad => ?_
    · refine ParserRelation.IsLaw.ite (law.bind (law.expect "=") fun _ => ?_) law.unexpected
      exact law.bind (law.expressionList fun limit => h (.operand limit)) fun _ => law.pure _
    · simp only [List.all_cons, bad, Bool.and_false, if_neg Bool.false_ne_true]
  · have commaOrSign : d.matchesAny [.text ",", .text "="] := by
      simpa [Cursor.matchesAny, Cursor.hasText] using .inl comma
    rw [get_bind, if_pos commaOrSign]
    simp only [List.all_cons, other, Bool.false_and, if_neg Bool.false_ne_true]
    exact error_of_bind_unexpected _ d

theorem compares_levels (le : depth ≤ limit) (form : Form) :
    (stricter limit).Relates k (levels depth form) (checkedLevels depth form) := by
  have law := isLaw_stricter limit
  induction depth generalizing form k with
  | zero => exact law.failHere _
  | succ depth ih =>
    have alike (form : Form) := ih (k := k) (Nat.le_of_succ_le le) form
    cases form with
    | block =>
      exact law.block (b := k) (alike .block) (alike <| .operand ·) (compares_assignmentOrCall le alike)
    | operand limit => exact law.operand (b := k) alike limit
    | suffixed => exact law.suffixed (b := k) alike
    | table => exact law.table (b := k) alike
    | arguments => exact law.arguments (b := k) alike

theorem compares_chunk (limit : Nat) :
    (stricter limit).Relates k (chunk limit) (chunkOf (checkedLevels limit .block)) := by
  have law := isLaw_stricter limit
  refine law.production (k := k) _ (law.bind (compares_levels le_rfl .block) fun _ => ?_)
  refine law.current_bind fun _ => ?_
  exact ParserRelation.IsLaw.ite (law.bind law.takeComments fun _ => law.pure _) law.unexpected

end Targets

section Places

variable {dialect : Dialect} {depth : Nat} {c e : Cursor} {comma : Token} {rest : List Outcome}
  {late : Error}

/-- A list that is refused is read from its comma on, so that the fault is met behind it. -/
theorem isMetIn_of_refuseList (faces : c.Faces dialect (.ok comma :: rest))
    (isComma : (Pattern.text ",").accepts comma)
    (run : refuseList (levels depth) c = .error late e) : late.IsMetIn rest := by
  have law := isLaw_meetsErrors.ofParsers
  have input := faces.input
  have shrinks := shrinks_behind "," (reads_target (reads_levels depth))
  have here : (Pattern.text ",").accepts c.current := faces.current ▸ isComma
  have taking : takes "," c = (liftM Cursor.advance >>= fun _ => pure true : Parser Bool) c := by
    rw [takes, liftM_consume, get_bind, if_pos here]
  rw [refuseList, afterCommas_bind_eq shrinks input] at run
  rcases Cursor.advance_cases c with ⟨d, -, -, view⟩ | ⟨t, more, d, moved, passes, -⟩ |
    ⟨x, more, d, failed, view⟩
  · rw [view] at input
    exact absurd rfl (input.tail_ne_nil (isEnd_of_accepts here))
  · have taken : takes "," c = .ok true d := by
      rw [taking, bind_eq_of_ok (liftM_ok.mpr moved)]
      rfl
    rw [bind_eq_of_ok taken, if_pos rfl] at run
    have met : meetsErrors.Holds (target (levels depth) >>= fun _ =>
        afterCommas (target (levels depth)) >>= fun _ => (unexpected : Parser Unit)) :=
      law.bind (k := 4 * depth) (law.target (law.levels depth)) fun _ =>
        law.bind (law.afterCommas (law.target (law.levels depth))) fun _ => law.unexpected
    have result := met d
    rw [run] at result
    have same : rest = d.upcoming := (List.cons.inj (faces.upcoming.symm.trans passes.upcoming)).2
    exact same ▸ result
  · have same : rest = .error x :: more := (List.cons.inj (faces.upcoming.symm.trans view)).2
    have lost : takes "," c = .error (.lexical x) d := by
      rw [taking, bind_eq_of_error (liftM_of_error failed)]
    rw [bind_eq_of_error lost] at run
    cases run
    exact same ▸ ⟨[], List.prefix_append [_] more⟩

/-- The fault of something met behind a token is behind its place. -/
theorem Error.IsMetIn.start_lt {outcomes front : List Outcome} {t : Token}
    (h : late.IsMetIn rest) (increase : outcomes.Pairwise fun o p => o.span.start < p.span.start)
    (split : outcomes = front ++ .ok t :: rest) : t.start.offset < late.position.offset := by
  have behind : ∀ o ∈ rest, t.start.offset < o.span.start := by
    rw [split] at increase
    exact (List.pairwise_cons.mp (List.pairwise_append.mp increase).2.1).1
  cases late with
  | lexical x =>
    obtain ⟨tokens, met⟩ := h
    have later := behind (.error x) (met.subset (by simp))
    exact later.trans_le x.start_le_position
  | grammatical x =>
    obtain ⟨tokens, u, met, same⟩ := h
    have later := behind (.ok u) (met.subset (by simp))
    change t.start.offset < x.position.offset
    rw [same]
    exact later

/-- Nothing else is met where a faulty lexeme comes next. -/
theorem Error.IsMetIn.eq_of_lexeme {x : LexError} {more : List Outcome}
    (h : late.IsMetIn (.error x :: more)) : late = .lexical x := by
  cases late with
  | lexical y =>
    obtain ⟨tokens, met⟩ := h
    cases tokens with
    | nil => exact congrArg Error.lexical (Except.error.inj (List.cons_prefix_cons.mp met).1)
    | cons t tokens => cases (List.cons_prefix_cons.mp met).1
  | grammatical y =>
    obtain ⟨tokens, t, met, -⟩ := h
    cases tokens <;> cases (List.cons_prefix_cons.mp met).1

end Places

/-- A program with checked targets is the same program, and most texts that are none have the same
error. Only where a comma follows a target that cannot be assigned to is there another one. Then the
comma is what had to be reported, and what is reported is met behind it: where the rest of the list
of targets cannot be read, or at the token behind the list. -/
theorem targets_are_looked_at_last (options : Options) (source : String) :
    parse options source = parseChecked options source ∨
    ∃ (front : List Token) (comma : Token) (rest : List Outcome) (near : String) (late : Error),
      (Lexed.ofSource options.toDialect source).seen = front.map .ok ++ .ok comma :: rest ∧
      (Pattern.text ",").accepts comma ∧
      parseChecked options source =
        .error (.grammatical ⟨.unexpected comma.kind comma.text, comma.start, near⟩) ∧
      parse options source = .error late ∧ comma.start.offset < late.position.offset ∧
      ∃ depth < options.maxDepth, ∃ c d : Cursor,
        c.Faces options.toDialect (.ok comma :: rest) ∧
          refuseList (levels depth) c = .error late d := by
  rw [parse, Report.ofSource, parseChecked]
  cases opened : Cursor.ofSource options.toDialect source with
  | error refusal => exact .inl rfl
  | ok c =>
    obtain ⟨view, -, dialect, input, -⟩ := ofSource_view opened
    have compared := compares_chunk (k := 0) options.maxDepth c input
    generalize plain : chunk options.maxDepth c = r at compared
    generalize checked : chunkOf (checkedLevels options.maxDepth .block) c = s at compared
    cases compared with
    | ok leads => exact .inl (by simp only [plain, checked])
    | error => exact .inl (by simp only [plain, checked])
    | @overlooked early late e f found =>
      simp only [plain, checked]
      obtain ⟨depth, less, d, g, rest, ⟨⟨front, further⟩, same⟩, here, comma, rfl, list⟩ := found
      have split : (Lexed.ofSource options.toDialect source).seen =
          front.map .ok ++ .ok d.current :: rest := by
        rw [← here, ← further]
        exact view.symm
      have faces : d.Faces options.toDialect (.ok d.current :: rest) := by
        refine ⟨here, same.trans dialect, ?_⟩
        rw [further] at input
        exact input.of_append (List.cons_ne_nil _ _)
      have met := isMetIn_of_refuseList faces comma list
      cases rest with
      | nil =>
        have whole := faces.input
        rw [here] at whole
        exact absurd rfl (whole.tail_ne_nil (isEnd_of_accepts comma))
      | cons upcoming more =>
        cases upcoming with
        | error x => exact .inl (by rw [met.eq_of_lexeme]; rfl)
        | ok next =>
          exact .inr ⟨front, d.current, _, next.near, late, split, comma, rfl, rfl,
            met.start_lt (Lexed.starts_of_seen_increase _ _) split, depth, less, d, g, faces, list⟩

/-- A call cannot be assigned to, and a comma follows this one. What is reported is the number behind
the list. -/
theorem comma_behind_call_is_not_reported :
    tokenize Options.forParser.toDialect "f(), x 3" = .ok
      [⟨.identifier, "f", ⟨0, 1, 0⟩⟩, ⟨.symbol, "(", ⟨1, 1, 0⟩⟩, ⟨.symbol, ")", ⟨2, 1, 0⟩⟩,
        ⟨.symbol, ",", ⟨3, 1, 0⟩⟩, ⟨.identifier, "x", ⟨5, 1, 0⟩⟩, ⟨.number, "3", ⟨7, 1, 0⟩⟩,
        ⟨.endOfInput, "", ⟨8, 1, 0⟩⟩] ∧
    parseChecked .forParser "f(), x 3" =
      .error (.grammatical ⟨.unexpected .symbol ",", ⟨3, 1, 0⟩, "x"⟩) ∧
    parse .forParser "f(), x 3" =
      .error (.grammatical ⟨.unexpected .number "3", ⟨7, 1, 0⟩, "<eof>"⟩) :=
  ⟨rfl, rfl, rfl⟩

end LuaFrontend
