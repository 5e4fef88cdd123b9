import LuaFrontend.Proofs.MirroredCursor

set_option autoImplicit false

namespace LuaFrontend

/-- The answer about other tokens. -/
def Answer.map {τ υ : Type} (f : τ → υ) : Answer τ → Answer υ
  | .done => .done
  | .token t => .token (f t)
  | .truth b => .truth b
  | .comments tokens => .comments (tokens.map f)
  | .taken tokens => .taken (tokens.map f)

namespace Request

/-- What a request does at a cursor that keeps its tokens in a vector. -/
def perform (o : Overflow) : Request → TokenCursor.Action (Answer TokenRecord)
  | current => return .token (← TokenCursor.current)
  | next => return .token (← TokenCursor.next o)
  | tokenAt number => return .token (← TokenCursor.tokenAt number)
  | lookahead distance => return .token (← TokenCursor.lookahead o distance)
  | advance => do
    TokenCursor.advance o
    return .done
  | matchesAny patterns => return .truth (← TokenCursor.matchesAny patterns)
  | nextMatchesAny patterns => return .truth (← TokenCursor.nextMatchesAny o patterns)
  | consume pattern => return .truth (← TokenCursor.consume o pattern)
  | consumeNext pattern => return .truth (← TokenCursor.consumeNext o pattern)
  | endsBlock => return .truth (← TokenCursor.endsBlock)
  | comments => return .comments (← get).comments.toList
  | takeComments => return .taken (← TokenCursor.takeComments)

/-- A distance that leads out of the sizes, where such sums are trapped. -/
def IsTrapped (o : Overflow) (index : Nat) (request : Request) : Prop :=
  o = .trapped ∧ ∃ distance, request = .lookahead distance ∧ sizeCount ≤ index + distance

variable {o : Overflow} {m : TokenCursor} {c : Cursor} {request : Request}

theorem add_of_free {index distance : Nat} (free : ¬ (lookahead distance).IsTrapped o index) :
    o.add index distance = some ((index + distance) % sizeCount) := by
  apply Overflow.add_eq_mod
  intro trapped
  by_contra high
  exact free ⟨trapped, distance, rfl, Nat.le_of_not_lt high⟩

theorem perform_agrees (h : m.Mirrors c) (free : ¬ request.IsTrapped o m.index) :
    TokenCursor.Agrees (Answer.map Token.record) (request.perform o m) (request.run c) := by
  cases request with
  | current => exact (TokenCursor.current_agrees h).map fun _ => rfl
  | next => exact (TokenCursor.next_agrees o h).map fun _ => rfl
  | tokenAt number => exact (TokenCursor.tokenAt_agrees h number).map fun _ => rfl
  | lookahead distance =>
    exact (TokenCursor.lookahead_agrees o h (add_of_free free)).map fun _ => rfl
  | advance => exact (TokenCursor.advance_agrees o h).map fun _ => rfl
  | matchesAny patterns => exact (TokenCursor.matchesAny_agrees h patterns).map fun _ => rfl
  | nextMatchesAny patterns =>
    exact (TokenCursor.nextMatchesAny_agrees o h patterns).map fun _ => rfl
  | consume pattern => exact (TokenCursor.consume_agrees o h pattern).map fun _ => rfl
  | consumeNext pattern => exact (TokenCursor.consumeNext_agrees o h pattern).map fun _ => rfl
  | endsBlock => exact (TokenCursor.endsBlock_agrees h).map fun _ => rfl
  | comments =>
    have run : perform o comments m = some (.ok (.comments (c.comments.map Token.record)), m) := by
      rw [perform, Machine.run_get, h.comments]
      rfl
    rw [run]
    exact .ok (a := Answer.comments c.comments) h
  | takeComments => exact (TokenCursor.takeComments_agrees h).map fun _ => rfl

theorem perform_of_isTrapped (trapped : request.IsTrapped o m.index) :
    request.perform o m = none := by
  obtain ⟨rfl, distance, rfl, high⟩ := trapped
  change (TokenCursor.lookahead .trapped distance m).bind _ = none
  rw [TokenCursor.lookahead_trapped high]
  rfl

/-- Nothing else leaves a request without an answer. -/
theorem perform_eq_none_iff (h : m.Mirrors c) :
    request.perform o m = none ↔ request.IsTrapped o m.index := by
  constructor
  · intro nothing
    by_contra free
    have agrees := perform_agrees h free
    rw [nothing] at agrees
    cases agrees
  · exact perform_of_isTrapped

variable {result : Except ErrorRecord (Answer TokenRecord)} {n : TokenCursor}

/-- What is answered is what the other cursor answers. -/
theorem run_of_perform (h : m.Mirrors c) (performed : request.perform o m = some (result, n)) :
    (∃ answer d, request.run c = .ok answer d ∧ result = .ok (answer.map Token.record) ∧
        n.Mirrors d) ∨
      ∃ e d, request.run c = .error e d ∧ result = .error e.record ∧ n.Mirrors d := by
  have free : ¬ request.IsTrapped o m.index := by
    intro trapped
    rw [perform_of_isTrapped trapped] at performed
    contradiction
  have agrees := perform_agrees h free
  rw [performed] at agrees
  generalize run : request.run c = y at agrees
  cases agrees with
  | ok further => exact .inl ⟨_, _, rfl, rfl, further⟩
  | error further => exact .inr ⟨_, _, rfl, rfl, further⟩

end Request

namespace TokenCursor

/-- A cursor that is asked, with the errors that it reported and the comments it gave away. -/
structure Session where
  cursor : TokenCursor
  errors : List ErrorRecord
  taken : List TokenRecord

namespace Session

/-- At a cursor that has not been asked yet. -/
def begin (c : TokenCursor) : Session := ⟨c, [], []⟩

variable (o : Overflow)

/-- After one more request, which may be met with an error. -/
def ask (s : Session) (request : Request) : Option Session := do
  let (result, cursor) ← request.perform o s.cursor
  match result with
  | .ok (.taken comments) => return { s with cursor, taken := s.taken ++ comments }
  | .ok _ => return { s with cursor }
  | .error e => return { s with cursor, errors := s.errors ++ [e] }

/-- After all these requests, unless one is trapped. -/
def askAll (s : Session) (requests : List Request) : Option Session := requests.foldlM (ask o) s

/-- A session goes as one with the other kind of cursor. -/
structure Mirrors (s : Session) (z : Cursor.Session) : Prop where
  cursor : s.cursor.Mirrors z.cursor
  errors : s.errors = z.errors.map LexError.record
  taken : s.taken = z.taken.map Token.record

variable {o} {s : Session} {z : Cursor.Session} {request : Request}

theorem Mirrors.ask (h : s.Mirrors z) (free : ¬ request.IsTrapped o s.cursor.index) :
    ∃ t : Session, s.ask o request = some t ∧ t.Mirrors (z.ask request) := by
  have agrees := request.perform_agrees h.cursor free
  rw [Session.ask]
  unfold Cursor.Session.ask
  generalize request.perform o s.cursor = x at agrees
  generalize request.run z.cursor = y at agrees
  cases agrees with
  | error further =>
    refine ⟨_, rfl, further, ?_, h.taken⟩
    rw [h.errors, List.map_append]
    rfl
  | @ok answer _ _ further =>
    cases answer with
    | taken comments =>
      refine ⟨_, rfl, further, h.errors, ?_⟩
      rw [h.taken, List.map_append]
    | done => exact ⟨_, rfl, further, h.errors, h.taken⟩
    | token t => exact ⟨_, rfl, further, h.errors, h.taken⟩
    | truth b => exact ⟨_, rfl, further, h.errors, h.taken⟩
    | comments comments => exact ⟨_, rfl, further, h.errors, h.taken⟩

/-- A request leads to where it leads the other cursor, whether it is answered or not. -/
theorem exists_ask {c : Cursor} (h : s.cursor.Mirrors c)
    (free : ¬ request.IsTrapped o s.cursor.index) : ∃ t : Session, s.ask o request = some t ∧
      ((∃ a d, request.run c = .ok a d ∧ t.cursor.Mirrors d) ∨
        ∃ e d, request.run c = .error e d ∧ t.cursor.Mirrors d) := by
  have agrees := request.perform_agrees h free
  rw [Session.ask]
  generalize request.perform o s.cursor = x at agrees
  generalize request.run c = y at agrees
  cases agrees with
  | error further => exact ⟨_, rfl, .inr ⟨_, _, rfl, further⟩⟩
  | @ok answer _ _ further =>
    cases answer <;> exact ⟨_, rfl, .inl ⟨_, _, rfl, further⟩⟩

theorem askAll_concat {requests : List Request} {t : Session}
    (front : s.askAll o requests = some t) :
    s.askAll o (requests ++ [request]) = t.ask o request := by
  rw [askAll] at front ⊢
  rw [List.foldlM_append, front]
  change (t.ask o request).bind some = _
  cases t.ask o request <;> rfl

/-- One of the requests is trapped when those before it have been answered. -/
def IsTrapped (o : Overflow) (s : Session) (requests : List Request) : Prop :=
  ∃ front request behind t, requests = front ++ request :: behind ∧ s.askAll o front = some t ∧
    request.IsTrapped o t.cursor.index

theorem askAll_of_isTrapped {requests : List Request} (h : IsTrapped o s requests) :
    s.askAll o requests = none := by
  obtain ⟨front, request, behind, t, rfl, before, trapped⟩ := h
  have stuck : t.ask o request = none := by
    rw [Session.ask, Request.perform_of_isTrapped trapped]
    rfl
  rw [askAll] at before ⊢
  rw [List.foldlM_append, before]
  change (t.ask o request).bind _ = none
  rw [stuck]
  rfl

/-- The induction is on the requests, each asked where the one before has led. -/
theorem Mirrors.askAll (h : s.Mirrors z) (requests : List Request) :
    (∃ t : Session, s.askAll o requests = some t ∧ t.Mirrors (z.askAll requests)) ∨
      IsTrapped o s requests := by
  induction requests generalizing s z with
  | nil => exact .inl ⟨s, rfl, h⟩
  | cons request requests ih =>
    by_cases trapped : request.IsTrapped o s.cursor.index
    · exact .inr ⟨[], request, requests, s, rfl, rfl, trapped⟩
    obtain ⟨next, first, mirrors⟩ := h.ask trapped
    have further (others : List Request) :
        s.askAll o (request :: others) = next.askAll o others := by
      change (s.ask o request).bind _ = _
      rw [first]
      rfl
    rcases ih mirrors with ⟨t, run, last⟩ | ⟨front, other, behind, t, rfl, before, trapped⟩
    · exact .inl ⟨t, (further requests).trans run, last⟩
    · exact .inr ⟨request :: front, other, behind, t, rfl, (further front).trans before, trapped⟩

end Session

end TokenCursor
end LuaFrontend
