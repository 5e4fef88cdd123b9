import LuaFrontend.Proofs.TokenizerPieces
import LuaFrontend.Token.Cursor

set_option autoImplicit false

/-
A cursor as the list of what it still has before it. Reading ahead does not change that list, and
moving on takes its first item away, unless it is the last one.
-/

namespace LuaFrontend

namespace Outcome

/-- The grammar sees everything but comments. -/
def isSignificant : Outcome → Bool
  | .ok t => !t.isComment
  | .error _ => true

def comment? : Outcome → Option Token
  | .ok t => if t.isComment then some t else none
  | .error _ => none

/-- What a text is cut into: the end token comes last and nowhere else, and no other sign than `...`
is a vararg. -/
inductive IsInput : List Outcome → Prop
  | final {t : Token} : t.isEnd → IsInput [.ok t]
  | token {t : Token} {rest : List Outcome} : t.isEnd = false →
    (t.kind = .vararg → t.text = "...") → IsInput rest → IsInput (.ok t :: rest)
  | error {e : LexError} {rest : List Outcome} : IsInput rest → IsInput (.error e :: rest)

theorem IsInput.ne_nil {outcomes : List Outcome} (h : IsInput outcomes) : outcomes ≠ [] := by
  cases h <;> simp

theorem IsInput.of_append {front rest : List Outcome} (h : IsInput (front ++ rest))
    (more : rest ≠ []) : IsInput rest := by
  induction front with
  | nil => exact h
  | cons o front ih =>
    rw [List.cons_append] at h
    generalize behind : front ++ rest = others at h
    cases h with
    | final _ => simp_all
    | token _ _ others => exact ih (behind ▸ others)
    | error others => exact ih (behind ▸ others)

/-- A token that is not the end token has something behind it. -/
theorem IsInput.tail_ne_nil {t : Token} {rest : List Outcome} (h : IsInput (.ok t :: rest))
    (more : t.isEnd = false) : rest ≠ [] := by
  cases h with
  | final last => simp [last] at more
  | token _ _ others => exact others.ne_nil

theorem IsInput.text_of_vararg {t : Token} {rest : List Outcome} (h : IsInput (.ok t :: rest))
    (vararg : t.kind = .vararg) : t.text = "..." := by
  cases h with
  | final last => simp [Token.isEnd, vararg] at last
  | token _ spelled _ => exact spelled vararg

theorem IsInput.eq_nil_of_isEnd {t : Token} {rest : List Outcome} (h : IsInput (.ok t :: rest))
    (last : t.isEnd) : rest = [] := by
  cases h with
  | final _ => rfl
  | token more _ _ => simp [last] at more

end Outcome

namespace Cursor

/-- What a cursor still has before it, the current token first. -/
def upcoming (c : Cursor) : List Outcome :=
  .ok c.current :: (c.ready.map .ok ++ c.pending.filter Outcome.isSignificant)

/-- The comments that are set aside or still to come. -/
def remarks (c : Cursor) : List Token := c.aside.reverse ++ c.pending.filterMap Outcome.comment?

theorem length_upcoming_le_ahead (c : Cursor) : c.upcoming.length ≤ c.ahead.length := by
  have fewer := List.length_filter_le Outcome.isSignificant c.pending
  simp only [upcoming, ahead, List.length_cons, List.length_append]
  omega

/-- From one cursor these tokens lead to the other; nothing else that matters has changed. -/
structure Passes (c : Cursor) (tokens : List Token) (d : Cursor) : Prop where
  upcoming : c.upcoming = tokens.map .ok ++ d.upcoming
  remarks : d.remarks = c.remarks
  dialect : d.dialect = c.dialect
  pending : d.pending <:+ c.pending

theorem Passes.refl (c : Cursor) : c.Passes [] c := ⟨rfl, rfl, rfl, List.suffix_refl _⟩

theorem Passes.trans {c d e : Cursor} {first second : List Token} (h : c.Passes first d)
    (g : d.Passes second e) : c.Passes (first ++ second) e := by
  refine ⟨?_, g.remarks.trans h.remarks, g.dialect.trans h.dialect, g.pending.trans h.pending⟩
  rw [h.upcoming, g.upcoming, List.map_append, List.append_assoc]

theorem Passes.upcoming_eq {c d : Cursor} (h : c.Passes [] d) : d.upcoming = c.upcoming :=
  h.upcoming.symm

theorem Passes.current_eq {c d : Cursor} (h : c.Passes [] d) : d.current = c.current := by
  have same := h.upcoming
  simp only [List.map_nil, List.nil_append, Cursor.upcoming, List.cons.injEq,
    Except.ok.injEq] at same
  exact same.1.symm

theorem Passes.input {c d : Cursor} {tokens : List Token} (h : c.Passes tokens d)
    (input : Outcome.IsInput c.upcoming) : Outcome.IsInput d.upcoming := by
  rw [h.upcoming] at input
  exact input.of_append (List.cons_ne_nil _ _)

theorem passes_keep (c : Cursor) (t : Token) (more : List Outcome) :
    { c with pending := .ok t :: more }.Passes [] { c.keep t with pending := more } := by
  by_cases comment : t.isComment
  · refine ⟨?_, ?_, ?_, List.suffix_cons _ _⟩ <;>
      simp [keep, comment, upcoming, remarks, record, Outcome.isSignificant, Outcome.comment?]
  · refine ⟨?_, ?_, ?_, List.suffix_cons _ _⟩ <;>
      simp [keep, comment, upcoming, remarks, record, Outcome.isSignificant, Outcome.comment?]

theorem current_keep (c : Cursor) (t : Token) : (c.keep t).current = c.current := by
  unfold keep
  split <;> rfl

/-- Reading does not change what is before the cursor. -/
theorem passes_of_readFrom {wanted : Nat} {pending : List Outcome} {c d : Cursor}
    (h : readFrom wanted pending c = .ok () d) :
    { c with pending }.Passes [] d ∧ (wanted ≤ d.ready.length ∨ d.pending = []) := by
  induction pending generalizing c with
  | nil =>
    cases h
    exact ⟨.refl _, .inr rfl⟩
  | cons o more ih =>
    cases o with
    | ok t =>
      rw [readFrom] at h
      split at h
      · next enough =>
        cases h
        exact ⟨.refl _, .inl enough⟩
      · have later := ih h
        exact ⟨(passes_keep c t more).trans later.1, later.2⟩
    | error e =>
      rw [readFrom] at h
      split at h
      · next enough =>
        cases h
        exact ⟨.refl _, .inl enough⟩
      · cases h

/-- An error stops reading where it stands. -/
theorem upcoming_of_readFrom_error {wanted : Nat} {pending : List Outcome} {c d : Cursor}
    {e : LexError} (h : readFrom wanted pending c = .error e d) :
    ∃ rest, { c with pending }.upcoming =
      .ok c.current :: (d.ready.map .ok ++ .error e :: rest) ∧ d.ready.length < wanted := by
  induction pending generalizing c with
  | nil => cases h
  | cons o more ih =>
    cases o with
    | ok t =>
      rw [readFrom] at h
      split at h
      · cases h
      · obtain ⟨rest, same, few⟩ := ih h
        refine ⟨rest, ?_, few⟩
        rw [(passes_keep c t more).upcoming, ← current_keep c t]
        exact same
    | error f =>
      rw [readFrom] at h
      split at h
      · cases h
      · next few =>
        cases h
        exact ⟨more.filter Outcome.isSignificant, rfl, Nat.lt_of_not_le few⟩

/-- Reading one token ahead: there is one, or the end token is current, or an error is met. -/
theorem read_one (c : Cursor) :
    (∃ t more d, read 1 c = .ok () d ∧ c.Passes [] d ∧ d.ready = t :: more) ∨
    (∃ d, read 1 c = .ok () d ∧ c.Passes [] d ∧ d.ready = [] ∧ d.pending = []) ∨
    (∃ e rest d, read 1 c = .error e d ∧ c.upcoming = .ok c.current :: .error e :: rest) := by
  cases result : read 1 c with
  | ok _ d =>
    have view := passes_of_readFrom result
    cases ready : d.ready with
    | cons t more => exact .inl ⟨t, more, d, rfl, view.1, ready⟩
    | nil =>
      have empty : d.pending = [] := view.2.resolve_left (by simp [ready])
      exact .inr (.inl ⟨d, rfl, view.1, ready, empty⟩)
  | error e d =>
    obtain ⟨rest, same, few⟩ := upcoming_of_readFrom_error result
    have none : d.ready = [] := List.eq_nil_of_length_eq_zero (by omega)
    rw [none] at same
    exact .inr (.inr ⟨e, rest, d, rfl, same⟩)

theorem upcoming_of_ready_nil {c d : Cursor} (h : c.Passes [] d) (ready : d.ready = [])
    (pending : d.pending = []) : c.upcoming = [.ok c.current] := by
  rw [h.upcoming, ← h.current_eq, upcoming, ready, pending]
  rfl

theorem upcoming_of_ready_cons {c d : Cursor} {t : Token} {more : List Token} (h : c.Passes [] d)
    (ready : d.ready = t :: more) :
    c.upcoming = .ok c.current :: .ok t ::
      (more.map .ok ++ d.pending.filter Outcome.isSignificant) := by
  rw [h.upcoming, ← h.current_eq, upcoming, ready]
  rfl

theorem next_cases (c : Cursor) :
    (∃ d, next c = .ok c.current d ∧ c.Passes [] d ∧ c.upcoming = [.ok c.current]) ∨
    (∃ t rest d, next c = .ok t d ∧ c.Passes [] d ∧
      c.upcoming = .ok c.current :: .ok t :: rest) ∨
    (∃ e rest d, next c = .error e d ∧ c.upcoming = .ok c.current :: .error e :: rest) := by
  have run (d : Cursor) (h : read 1 c = .ok () d) : next c = .ok (d.peek 1) d := by
    simp only [next, tokenAhead, bind, EStateM.bind, h]
    rfl
  rcases read_one c with ⟨t, more, d, h, passes, ready⟩ | ⟨d, h, passes, ready, pending⟩ |
    ⟨e, rest, d, h, same⟩
  · refine .inr (.inl ⟨t, _, d, ?_, passes, upcoming_of_ready_cons passes ready⟩)
    rw [run d h, peek, ready]
    rfl
  · refine .inl ⟨d, ?_, passes, upcoming_of_ready_nil passes ready pending⟩
    rw [run d h, peek, latest, ready, passes.current_eq]
    rfl
  · refine .inr (.inr ⟨e, rest, d, ?_, same⟩)
    simp only [next, tokenAhead, bind, EStateM.bind, h]

theorem advance_cases (c : Cursor) :
    (∃ d, advance c = .ok () d ∧ c.Passes [] d ∧ c.upcoming = [.ok c.current]) ∨
    (∃ t rest d, advance c = .ok () d ∧ c.Passes [c.current] d ∧
      c.upcoming = .ok c.current :: .ok t :: rest) ∨
    (∃ e rest d, advance c = .error e d ∧ c.upcoming = .ok c.current :: .error e :: rest) := by
  have run (d : Cursor) (h : read 1 c = .ok () d) : advance c = .ok () d.step := by
    simp only [advance, bind, EStateM.bind, h]
    rfl
  rcases read_one c with ⟨t, more, d, h, passes, ready⟩ | ⟨d, h, passes, ready, pending⟩ |
    ⟨e, rest, d, h, same⟩
  · refine .inr (.inl ⟨t, _, _, run d h, ⟨?_, ?_, ?_, ?_⟩, upcoming_of_ready_cons passes ready⟩)
    · rw [upcoming_of_ready_cons passes ready, step, ready]
      rfl
    · rw [← passes.remarks, step, ready]
      rfl
    · rw [← passes.dialect, step, ready]
    · simp only [step, ready]
      exact passes.pending
  · refine .inl ⟨d, ?_, passes, upcoming_of_ready_nil passes ready pending⟩
    rw [run d h, step, ready]
  · refine .inr (.inr ⟨e, rest, d, ?_, same⟩)
    simp only [advance, bind, EStateM.bind, h]

section Views

variable {c : Cursor} {t : Token} {e : LexError} {rest : List Outcome}

theorem next_of_end (h : c.upcoming = [.ok c.current]) :
    ∃ d, next c = .ok c.current d ∧ c.Passes [] d := by
  rcases next_cases c with ⟨d, run, passes, -⟩ | ⟨u, more, d, -, -, view⟩ | ⟨f, more, d, -, view⟩
  · exact ⟨d, run, passes⟩
  · simp [h] at view
  · simp [h] at view

theorem next_of_token (h : c.upcoming = .ok c.current :: .ok t :: rest) :
    ∃ d, next c = .ok t d ∧ c.Passes [] d := by
  rcases next_cases c with ⟨d, -, -, view⟩ | ⟨u, more, d, run, passes, view⟩ | ⟨f, more, d, -, view⟩
  · simp [h] at view
  · rw [h] at view
    cases view
    exact ⟨d, run, passes⟩
  · simp [h] at view

theorem next_of_error (h : c.upcoming = .ok c.current :: .error e :: rest) :
    ∃ d, next c = .error e d := by
  rcases next_cases c with ⟨d, -, -, view⟩ | ⟨u, more, d, -, -, view⟩ | ⟨f, more, d, run, view⟩
  · simp [h] at view
  · simp [h] at view
  · rw [h] at view
    cases view
    exact ⟨d, run⟩

theorem advance_of_end (h : c.upcoming = [.ok c.current]) :
    ∃ d, advance c = .ok () d ∧ c.Passes [] d := by
  rcases advance_cases c with ⟨d, run, passes, -⟩ | ⟨u, more, d, -, -, view⟩ | ⟨f, more, d, -, view⟩
  · exact ⟨d, run, passes⟩
  · simp [h] at view
  · simp [h] at view

theorem advance_of_token (h : c.upcoming = .ok c.current :: .ok t :: rest) :
    ∃ d, advance c = .ok () d ∧ c.Passes [c.current] d := by
  rcases advance_cases c with ⟨d, -, -, view⟩ | ⟨u, more, d, run, passes, -⟩ | ⟨f, more, d, -, view⟩
  · simp [h] at view
  · exact ⟨d, run, passes⟩
  · simp [h] at view

theorem advance_of_error (h : c.upcoming = .ok c.current :: .error e :: rest) :
    ∃ d, advance c = .error e d := by
  rcases advance_cases c with ⟨d, -, -, view⟩ | ⟨u, more, d, -, -, view⟩ | ⟨f, more, d, run, view⟩
  · simp [h] at view
  · simp [h] at view
  · rw [h] at view
    cases view
    exact ⟨d, run⟩

end Views

/-- Where the end token is not current, moving on takes the current token away. -/
theorem passes_of_advance {c d : Cursor} (h : advance c = .ok () d)
    (input : Outcome.IsInput c.upcoming) (more : c.current.isEnd = false) :
    c.Passes [c.current] d := by
  rcases advance_cases c with ⟨e, run, -, last⟩ | ⟨t, rest, e, run, passes, -⟩ |
    ⟨e, rest, f, run, -⟩
  · rw [last] at input
    exact absurd rfl (input.tail_ne_nil more)
  · rw [run] at h
    cases h
    exact passes
  · rw [run] at h
    cases h

theorem length_lt_of_advance {c d : Cursor} (h : advance c = .ok () d)
    (input : Outcome.IsInput c.upcoming) (more : c.current.isEnd = false) :
    d.upcoming.length < c.upcoming.length := by
  rw [(passes_of_advance h input more).upcoming, List.map_singleton, List.singleton_append,
    List.length_cons]
  omega

theorem passes_of_next {c d : Cursor} {t : Token} (h : next c = .ok t d) : c.Passes [] d := by
  rcases next_cases c with ⟨e, run, passes, -⟩ | ⟨u, rest, e, run, passes, -⟩ |
    ⟨e, rest, f, run, -⟩
  · rw [run] at h
    cases h
    exact passes
  · rw [run] at h
    cases h
    exact passes
  · rw [run] at h
    cases h

/-- The token that was looked at is the one that is moved to. -/
theorem current_of_next_advance {c d e : Cursor} {t : Token} (h : next c = .ok t d)
    (g : advance d = .ok () e) : e.current = t := by
  have passes := passes_of_next h
  rcases next_cases c with ⟨f, run, -, view⟩ | ⟨u, rest, f, run, -, view⟩ | ⟨x, rest, f, run, -⟩
  · rw [run] at h
    cases h
    rcases advance_cases d with ⟨f, run, further, -⟩ | ⟨u, rest, f, -, -, seen⟩ |
      ⟨x, rest, f, run, -⟩
    · rw [run] at g
      cases g
      rw [further.current_eq, passes.current_eq]
    · simp [passes.upcoming_eq, view] at seen
    · rw [run] at g
      cases g
  · rw [run] at h
    cases h
    rcases advance_cases d with ⟨f, -, -, seen⟩ | ⟨u, rest, f, run, further, -⟩ |
      ⟨x, rest, f, run, -⟩
    · simp [passes.upcoming_eq, view] at seen
    · rw [run] at g
      cases g
      have both := further.upcoming
      rw [passes.upcoming_eq, view] at both
      obtain ⟨-, both⟩ := List.cons.inj both
      exact (Except.ok.inj (List.cons.inj both).1).symm
    · rw [run] at g
      cases g
  · rw [run] at h
    cases h

/-- At the first token of a text. -/
theorem opening_view {dialect : Dialect} {final : Token} {aside : List Token}
    {items : List Outcome} {c : Cursor} (h : opening dialect final aside items = .ok c)
    (last : final.isEnd) :
    c.upcoming = items.filter Outcome.isSignificant ++ [.ok final] ∧
      c.remarks = aside.reverse ++ items.filterMap Outcome.comment? ∧ c.dialect = dialect := by
  have other : final.isComment = false := by
    simp only [Token.isEnd, beq_iff_eq] at last
    simp [Token.isComment, last]
  induction items generalizing aside with
  | nil =>
    cases h
    exact ⟨rfl, rfl, rfl⟩
  | cons o items ih =>
    cases o with
    | error e => cases h
    | ok t =>
      rw [opening] at h
      split at h
      · next comment =>
        have later := ih h
        simpa [Outcome.isSignificant, Outcome.comment?, comment] using later
      · next token =>
        cases h
        simp [upcoming, remarks, Outcome.isSignificant, Outcome.comment?, token, other]

theorem opening_error {dialect : Dialect} {final : Token} {aside : List Token}
    {items : List Outcome} {r : Refusal} (h : opening dialect final aside items = .error r) :
    .error r.error ∈ items := by
  induction items generalizing aside with
  | nil => cases h
  | cons o items ih =>
    cases o with
    | error e =>
      cases h
      exact List.mem_cons_self
    | ok t =>
      rw [opening] at h
      split at h
      · exact List.mem_cons_of_mem _ (ih h)
      · cases h

end Cursor
end LuaFrontend
