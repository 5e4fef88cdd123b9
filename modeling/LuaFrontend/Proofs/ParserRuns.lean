import LuaFrontend.Grammar.Parser
import LuaFrontend.Proofs.CursorView

set_option autoImplicit false

namespace LuaFrontend.Parser

variable {α β : Type} {c d : Cursor}

theorem bind_ok {ε : Type} {p : EStateM ε Cursor α} {f : α → EStateM ε Cursor β} {b : β} :
    (p >>= f) c = .ok b d ↔ ∃ a e, p c = .ok a e ∧ f a e = .ok b d := by
  simp only [bind, EStateM.bind]
  constructor
  · intro h
    split at h
    · next a e run => exact ⟨a, e, run, h⟩
    · cases h
  · rintro ⟨a, e, run, h⟩
    rw [run]
    exact h

theorem bind_eq_of_ok {p : Parser α} {f : α → Parser β} {a : α} (run : p c = .ok a d) :
    (p >>= f) c = f a d := by
  simp only [bind, EStateM.bind, run]

theorem bind_eq_of_error {p : Parser α} {f : α → Parser β} {e : Error} (run : p c = .error e d) :
    (p >>= f) c = .error e d := by
  simp only [bind, EStateM.bind, run]

/-- Where two parsers come to the same, they go on alike. -/
theorem bind_eq_of_eq {p q : Parser α} {f : α → Parser β} (same : p c = q d) :
    (p >>= f) c = (q >>= f) d := by
  simp only [bind, EStateM.bind, same]

theorem pure_ok {ε : Type} {a b : α} :
    (pure a : EStateM ε Cursor α) c = .ok b d ↔ b = a ∧ d = c := by
  simp only [pure, EStateM.pure, EStateM.Result.ok.injEq]
  constructor <;> rintro ⟨rfl, rfl⟩ <;> exact ⟨rfl, rfl⟩

theorem get_bind {ε : Type} {f : Cursor → EStateM ε Cursor α} : (get >>= f) c = f c c := rfl

theorem current_bind {f : Token → Parser α} : (current >>= f) c = f c.current c := rfl

theorem liftM_ok {action : Cursor.Action α} {a : α} :
    (liftM action : Parser α) c = .ok a d ↔ action c = .ok a d := by
  change act action c = _ ↔ _
  unfold act
  cases action c <;> simp

theorem liftM_bind (action : Cursor.Action α) (next : α → Cursor.Action β) :
    (liftM (action >>= next) : Parser β) = liftM action >>= fun a => liftM (next a) := by
  funext c
  change act (action >>= next) c = (act action >>= fun a => act (next a)) c
  simp only [act, bind, EStateM.bind]
  cases action c <;> rfl

theorem liftM_consume (pattern : Pattern) :
    (liftM (Cursor.consume pattern) : Parser Bool) = (do
      if pattern.accepts (← get).current then
        Cursor.advance
        return true
      else return false) := by
  funext c
  rw [Cursor.consume, liftM_bind]
  change (liftM (if pattern.accepts c.current then _ else _ : Cursor.Action Bool) : Parser Bool) c =
    (if pattern.accepts c.current then _ else _ : Parser Bool) c
  split
  · rw [liftM_bind]
    rfl
  · rfl

theorem liftM_nextMatchesAny (patterns : List Pattern) :
    (liftM (Cursor.nextMatchesAny patterns) : Parser Bool) = (do
      let t ← Cursor.next
      return patterns.any (·.accepts t)) := by
  rw [Cursor.nextMatchesAny, liftM_bind]
  rfl

theorem liftM_consumeNext (pattern : Pattern) :
    (liftM (Cursor.consumeNext pattern) : Parser Bool) = (do
      if pattern.accepts (← Cursor.next) then
        Cursor.advance
        Cursor.advance
        return true
      else return false) := by
  rw [Cursor.consumeNext, liftM_bind]
  congr 1
  funext t
  split
  · rw [liftM_bind]
    congr 1
    funext _
    rw [liftM_bind]
    rfl
  · rfl

theorem passes_of_nextMatchesAny {patterns : List Pattern} {matched : Bool}
    (run : (liftM (Cursor.nextMatchesAny patterns) : Parser Bool) c = .ok matched d) :
    c.Passes [] d := by
  rw [liftM_nextMatchesAny] at run
  obtain ⟨t, e, following, result⟩ := bind_ok.mp run
  obtain ⟨-, rfl⟩ := pure_ok.mp result
  exact Cursor.passes_of_next (liftM_ok.mp following)

theorem discard_ok {p : Parser α} {u : Unit} :
    Functor.discard p c = .ok u d ↔ ∃ a, p c = .ok a d := by
  change EStateM.map _ p c = _ ↔ _
  unfold EStateM.map
  cases p c <;> simp

theorem discard_error {p : Parser α} {e : Error} (run : p c = .error e d) :
    Functor.discard p c = .error e d := by
  change EStateM.map _ p c = _
  simp only [EStateM.map, run]

theorem production_ok {production : Production} {body : Parser α} {a : α} :
    Parser.production production body c = .ok a d ↔
      ∃ e, body (c.record (.enter production)) = .ok a e ∧ d = e.record (.exit production) := by
  unfold Parser.production
  constructor
  · intro h
    split at h
    · next b e run =>
      cases h
      exact ⟨e, run, rfl⟩
    · cases h
  · rintro ⟨e, run, rfl⟩
    rw [run]

theorem error_production {production : Production} {body : Parser α} {x : Error}
    (run : body (c.record (.enter production)) = .error x d) :
    ∃ e, Parser.production production body c = .error x e := by
  refine ⟨d.record (.exit production), ?_⟩
  unfold Parser.production
  rw [run]

theorem not_throw_ok {e : Error} {a : α} : ¬ (throw e : Parser α) c = .ok a d := by
  intro run
  cases run

theorem not_failHere_ok {fault : SyntaxFault} {a : α} : ¬ failHere fault c = .ok a d := by
  intro run
  obtain ⟨_, _, _, run⟩ := bind_ok.mp run
  exact not_throw_ok run

theorem not_expected_ok {what : Expectation} {a : α} : ¬ expected what c = .ok a d :=
  not_failHere_ok

theorem not_unexpected_ok {a : α} : ¬ unexpected c = .ok a d := by
  intro run
  obtain ⟨_, _, _, run⟩ := bind_ok.mp run
  obtain ⟨_, _, _, run⟩ := bind_ok.mp run
  exact not_throw_ok run

theorem expect_ok {text : String} {u : Unit} :
    expect text c = .ok u d ↔ takes text c = .ok true d := by
  simp only [expect, bind_ok]
  constructor
  · rintro ⟨taken, e, h, g⟩
    cases taken with
    | true =>
      obtain ⟨-, rfl⟩ := pure_ok.mp g
      exact h
    | false => exact (not_expected_ok g).elim
  · intro h
    exact ⟨true, d, h, rfl⟩

theorem required_ok {what : Expectation} {part : Parser (Option α)} {a : α} :
    required what part c = .ok a d ↔ part c = .ok (some a) d := by
  simp only [required, bind_ok]
  constructor
  · rintro ⟨result, e, h, g⟩
    cases result with
    | some b =>
      obtain ⟨rfl, rfl⟩ := pure_ok.mp g
      exact h
    | none => exact (not_expected_ok g).elim
  · intro h
    exact ⟨some a, d, h, rfl⟩

theorem behind_some {text : String} {item : Parser α} {a : α} :
    behind text item c = .ok (some a) d ↔
      ∃ e, takes text c = .ok true e ∧ item e = .ok a d := by
  simp only [behind, bind_ok]
  constructor
  · rintro ⟨taken, e, h, g⟩
    cases taken with
    | true =>
      obtain ⟨b, f, run, same⟩ := bind_ok.mp g
      obtain ⟨same, rfl⟩ := pure_ok.mp same
      cases same
      exact ⟨e, h, run⟩
    | false =>
      obtain ⟨same, -⟩ := pure_ok.mp g
      cases same
  · rintro ⟨e, h, run⟩
    exact ⟨true, e, h, bind_ok.mpr ⟨a, d, run, rfl⟩⟩

theorem behind_none {text : String} {item : Parser α} :
    behind text item c = .ok none d ↔ takes text c = .ok false d := by
  simp only [behind, bind_ok]
  constructor
  · rintro ⟨taken, e, h, g⟩
    cases taken with
    | true =>
      obtain ⟨b, f, -, same⟩ := bind_ok.mp g
      obtain ⟨same, -⟩ := pure_ok.mp same
      cases same
    | false =>
      obtain ⟨-, rfl⟩ := pure_ok.mp g
      exact h
  · intro h
    exact ⟨false, d, h, rfl⟩

/-- Every part that a step gives leaves less before the cursor. -/
def Shrinks (step : Parser (Option α)) : Prop :=
  ∀ ⦃c a d⦄, Outcome.IsInput c.upcoming → step c = .ok (some a) d →
    Outcome.IsInput d.upcoming ∧ d.upcoming.length < c.upcoming.length

theorem length_upcoming_pos (c : Cursor) : 0 < c.upcoming.length := Nat.zero_lt_succ _

/-- A bound that is long enough does not matter. -/
theorem manyUpTo_eq {γ : Type} {step : Parser (Option α)} (h : Shrinks step) (bound : List β)
    (other : List γ) (input : Outcome.IsInput c.upcoming) (long : c.upcoming.length ≤ bound.length)
    (alsoLong : c.upcoming.length ≤ other.length) :
    manyUpTo step bound c = manyUpTo step other c := by
  induction bound generalizing other c with
  | nil => exact absurd long (Nat.not_le_of_lt (length_upcoming_pos c))
  | cons _ bound ih =>
    cases other with
    | nil => exact absurd alsoLong (Nat.not_le_of_lt (length_upcoming_pos c))
    | cons _ other =>
      simp only [manyUpTo, bind, EStateM.bind]
      cases run : step c with
      | error e d => rfl
      | ok result d =>
        cases result with
        | none => rfl
        | some a =>
          obtain ⟨further, less⟩ := h input run
          simp only [List.length_cons] at long alsoLong
          simp only [EStateM.bind, ih other further (by omega) (by omega)]

/-- A loop is its first round and the loop again. -/
theorem many_eq {step : Parser (Option α)} (h : Shrinks step) (input : Outcome.IsInput c.upcoming) :
    many step c = (do
      match ← step with
      | some a => return a :: (← many step)
      | none => return [] : Parser (List α)) c := by
  have bounded := c.length_upcoming_le_ahead
  rw [many, get_bind]
  cases ahead : c.ahead with
  | nil => simp [ahead, Cursor.upcoming] at bounded
  | cons o rest =>
    rw [ahead, List.length_cons] at bounded
    simp only [manyUpTo, bind, EStateM.bind]
    cases run : step c with
    | error e d => rfl
    | ok result d =>
      cases result with
      | none => rfl
      | some a =>
        obtain ⟨further, less⟩ := h input run
        have same := manyUpTo_eq h rest d.ahead further (by omega) d.length_upcoming_le_ahead
        simp only [EStateM.bind, same]
        rfl

theorem many_of_some {step : Parser (Option α)} {a : α} (h : Shrinks step)
    (input : Outcome.IsInput c.upcoming) (run : step c = .ok (some a) d) :
    many step c = (many step >>= fun others => pure (a :: others) : Parser (List α)) d := by
  rw [many_eq h input, bind_eq_of_ok run]

theorem many_of_none {step : Parser (Option α)} (h : Shrinks step)
    (input : Outcome.IsInput c.upcoming) (run : step c = .ok none d) :
    many step c = .ok [] d := by
  rw [many_eq h input, bind_eq_of_ok run]
  rfl

/-- What a loop gives may not matter; then it may as well begin in its second round. -/
theorem discard_many_of_some {step : Parser (Option α)} {a : α} (h : Shrinks step)
    (input : Outcome.IsInput c.upcoming) (run : step c = .ok (some a) d) :
    Functor.discard (many step) c = Functor.discard (many step) d := by
  change EStateM.map _ (many step) c = EStateM.map _ (many step) d
  simp only [EStateM.map, many_of_some h input run]
  cases rest : many step d with
  | ok others e =>
    rw [bind_eq_of_ok rest]
    rfl
  | error x e => rw [bind_eq_of_error rest]

theorem growUpTo_eq {γ : Type} {step : α → Parser (Option α)} {start : α}
    (h : ∀ a, Shrinks (step a)) (bound : List β) (other : List γ)
    (input : Outcome.IsInput c.upcoming) (long : c.upcoming.length ≤ bound.length)
    (alsoLong : c.upcoming.length ≤ other.length) :
    growUpTo step bound start c = growUpTo step other start c := by
  induction bound generalizing other start c with
  | nil => exact absurd long (Nat.not_le_of_lt (length_upcoming_pos c))
  | cons _ bound ih =>
    cases other with
    | nil => exact absurd alsoLong (Nat.not_le_of_lt (length_upcoming_pos c))
    | cons _ other =>
      simp only [growUpTo, bind, EStateM.bind]
      cases run : step start c with
      | error e d => rfl
      | ok result d =>
        cases result with
        | none => rfl
        | some a =>
          obtain ⟨further, less⟩ := h start input run
          simp only [List.length_cons] at long alsoLong
          exact ih other further (by omega) (by omega)

theorem grow_eq {step : α → Parser (Option α)} {start : α} (h : ∀ a, Shrinks (step a))
    (input : Outcome.IsInput c.upcoming) :
    grow step start c = (do
      match ← step start with
      | some a => grow step a
      | none => return start : Parser α) c := by
  have bounded := c.length_upcoming_le_ahead
  rw [grow, get_bind]
  cases ahead : c.ahead with
  | nil => simp [ahead, Cursor.upcoming] at bounded
  | cons o rest =>
    rw [ahead, List.length_cons] at bounded
    simp only [growUpTo, bind, EStateM.bind]
    cases run : step start c with
    | error e d => rfl
    | ok result d =>
      cases result with
      | none => rfl
      | some a =>
        obtain ⟨further, less⟩ := h start input run
        exact growUpTo_eq h rest d.ahead further (by omega) d.length_upcoming_le_ahead

/-- Growing ends where a step builds no more, and what every step keeps holds there. -/
theorem grow_ok {step : α → Parser (Option α)} {start result : α} (h : ∀ a, Shrinks (step a))
    (keeps : α → Cursor → Prop)
    (round : ∀ a b e f, keeps a e → step a e = .ok (some b) f → keeps b f)
    (input : Outcome.IsInput c.upcoming) (holds : keeps start c)
    (run : grow step start c = .ok result d) :
    ∃ e, keeps result e ∧ step result e = .ok none d := by
  induction size : c.upcoming.length using Nat.strong_induction_on generalizing start c with
  | _ n ih =>
    rw [grow_eq h input] at run
    obtain ⟨built, e, first, run⟩ := bind_ok.mp run
    cases built with
    | none =>
      obtain ⟨rfl, rfl⟩ := pure_ok.mp run
      exact ⟨c, holds, first⟩
    | some a =>
      obtain ⟨further, less⟩ := h start input first
      exact ih _ (size ▸ less) further (round start a c e holds first) run rfl

end LuaFrontend.Parser
