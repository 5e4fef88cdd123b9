import LuaFrontend.Operator
import LuaFrontend.Profile
import LuaFrontend.Proofs.CursorAnswers
import LuaFrontend.Proofs.EventTrace
import LuaFrontend.Proofs.OpenLevels
import LuaFrontend.Proofs.ProperTree
import LuaFrontend.Proofs.ReportedPositions
import LuaFrontend.Proofs.ScannerMoves

set_option autoImplicit false

namespace LuaFrontend

namespace TokenCursor

variable {dialect : Dialect} {source : String} {c : TokenCursor} {d : Cursor}

section Steps

variable {o : Overflow}

/-- A session that begins at the one cursor leads to where the other one is. -/
def LeadsTo (o : Overflow) (c : TokenCursor) (d : Cursor) : Prop :=
  ∃ requests s, (Session.begin c).askAll o requests = some s ∧ s.cursor.Mirrors d

/-- One request leads further. -/
theorem LeadsTo.ask (h : c.LeadsTo o d) (request : Request)
    (free : ∀ distance, request ≠ .lookahead distance) :
    c.LeadsTo o (endOf (request.run d)) := by
  obtain ⟨requests, s, run, mirrors⟩ := h
  have free : ¬ request.IsTrapped o s.cursor.index := by
    rintro ⟨-, distance, same, -⟩
    exact free distance same
  obtain ⟨t, asked, ⟨a, e, answered, further⟩ | ⟨x, e, failed, further⟩⟩ :=
    Session.exists_ask mirrors free
  · rw [answered]
    exact ⟨_, t, (Session.askAll_concat run).trans asked, further⟩
  · rw [failed]
    exact ⟨_, t, (Session.askAll_concat run).trans asked, further⟩

theorem endOf_map {α β : Type} {f : α → β} (action : Cursor.Action α) :
    endOf ((do return f (← action) : Cursor.Action β) d) = endOf (action d) := by
  simp only [bind, EStateM.bind]
  cases action d <;> rfl

/-- Every move is a request, but for what is recorded. -/
theorem LeadsTo.move (h : c.LeadsTo o d) {α : Type} (m : Move α) :
    c.LeadsTo o (endOf (m.action d)) := by
  cases m with
  | next =>
    have asked := h.ask .next fun _ => by simp
    rwa [Request.run, endOf_map] at asked
  | advance =>
    have asked := h.ask .advance fun _ => by simp
    rwa [Request.run, endOf_map (f := fun _ => Answer.done)] at asked
  | takeComments =>
    have asked := h.ask .takeComments fun _ => by simp
    rwa [Request.run, endOf_map] at asked
  | record e =>
    obtain ⟨requests, s, run, mirrors⟩ := h
    exact ⟨requests, s, run, mirrors.tokens, mirrors.comments, mirrors.index, mirrors.isEndReached,
      mirrors.ahead, mirrors.ended, mirrors.room⟩

/-- A session can follow a script from step to step. -/
theorem LeadsTo.states {α : Type} (script : Script α) (h : c.LeadsTo o d) :
    ∀ e ∈ script.states d, c.LeadsTo o e := by
  induction script generalizing d with
  | done result => simpa [Script.states] using h
  | look go ih => exact ih _ _ _ h
  | move m go ih => exact List.forall_mem_cons.mpr ⟨h, ih _ (h.move m)⟩

end Steps

end TokenCursor

/-- A profile has the names of the productions that are open. -/
theorem Profile.opened_foldl (p : Profile) {opened inner : List Production} {events : List Event}
    (h : Event.openAfter opened events = some inner) (same : p.opened = opened.map Production.name) :
    (events.foldl observe p).opened = inner.map Production.name := by
  induction events generalizing p opened with
  | nil =>
    obtain rfl := Option.some.inj h
    exact same
  | cons event events ih =>
    obtain ⟨next, first, rest⟩ := Option.bind_eq_some_iff.mp h
    refine ih (p.observe event) rest ?_
    cases event with
    | token t =>
      obtain rfl := Option.some.inj first
      exact same
    | enter production =>
      obtain rfl := Option.some.inj first
      exact congrArg (production.name :: ·) same
    | exit production =>
      rw [Event.open?] at first
      split at first
      · obtain rfl := Option.some.inj first
        simp only [observe, exit, same, List.map_tail]
      · cases first

theorem Profile.opened_ofEvents {events : List Event} (h : Event.AreBalanced events) :
    (ofEvents events).opened = [] :=
  opened_foldl {} (h []) rfl

end LuaFrontend
