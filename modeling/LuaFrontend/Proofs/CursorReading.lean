import LuaFrontend.Proofs.ParserRuns

set_option autoImplicit false

namespace LuaFrontend

namespace Outcome

/-- The token, if it is no comment. -/
def token? : Outcome → Option Token
  | .ok t => if t.isComment then none else some t
  | .error _ => none

def error? : Outcome → Option LexError
  | .ok _ => none
  | .error e => some e

end Outcome

open LuaFrontend.Parser (bind_ok pure_ok get_bind)

namespace Cursor

/-- The tokens that have been read, comments apart. -/
def buffer (c : Cursor) : List Token := c.passed.reverse ++ c.current :: c.ready

section Buffer

variable (c : Cursor)

theorem length_buffer : c.buffer.length = c.buffered := by
  simp only [buffer, buffered, List.length_append, List.length_reverse, List.length_cons]
  omega

theorem index_lt_buffered : c.index < c.buffered := by
  simp only [index, buffered]
  omega

theorem getElem?_buffer_index : c.buffer[c.index]? = some c.current := by
  rw [buffer, index, ← List.length_reverse, List.getElem?_append_right le_rfl, Nat.sub_self]
  rfl

theorem getLast?_buffer : c.buffer.getLast? = some c.latest := by
  rw [buffer, List.getLast?_append, List.getLast?_cons, latest, List.getLastD_eq_getLast?]
  rfl

end Buffer

/-- What was pending in front has been read, and was put where it belongs. -/
structure Pulls (c : Cursor) (pulled : List Outcome) (d : Cursor) : Prop where
  pending : c.pending = pulled ++ d.pending
  buffer : d.buffer = c.buffer ++ pulled.filterMap Outcome.token?
  comments : d.comments = c.comments ++ pulled.filterMap Outcome.comment?

namespace Pulls

variable {c d e : Cursor} {first second : List Outcome}

theorem refl (c : Cursor) : c.Pulls [] c :=
  ⟨rfl, (List.append_nil _).symm, (List.append_nil _).symm⟩

theorem trans (h : c.Pulls first d) (g : d.Pulls second e) : c.Pulls (first ++ second) e := by
  refine ⟨?_, ?_, ?_⟩
  · rw [h.pending, g.pending, List.append_assoc]
  · rw [g.buffer, h.buffer, List.filterMap_append, List.append_assoc]
  · rw [g.comments, h.comments, List.filterMap_append, List.append_assoc]

theorem buffered (h : c.Pulls first d) :
    d.buffered = c.buffered + (first.filterMap Outcome.token?).length := by
  rw [← length_buffer, h.buffer, List.length_append, length_buffer]

end Pulls

theorem pulls_keep (c : Cursor) (t : Token) (more : List Outcome) :
    { c with pending := .ok t :: more }.Pulls [.ok t] { c.keep t with pending := more } := by
  by_cases comment : t.isComment
  · refine ⟨rfl, ?_, ?_⟩ <;>
      simp [keep, comment, record, buffer, comments, Outcome.token?, Outcome.comment?]
  · refine ⟨rfl, ?_, ?_⟩ <;>
      simp [keep, comment, record, buffer, comments, Outcome.token?, Outcome.comment?]

theorem index_keep (c : Cursor) (t : Token) : (c.keep t).index = c.index := by
  unfold keep
  split <;> rfl

/-- Reading has gone on until so many tokens were ready, and no further. -/
structure Fills (c : Cursor) (wanted : Nat) (pulled : List Outcome) (d : Cursor) : Prop
    extends c.Pulls pulled d where
  faultless : pulled.filterMap Outcome.error? = []
  index : d.index = c.index
  enough : c.index + wanted < d.buffered ∨ d.pending = []
  needed : ∀ front rest, pulled = front ++ rest → rest ≠ [] →
    c.buffered + (front.filterMap Outcome.token?).length ≤ c.index + wanted

theorem Fills.refl {c : Cursor} {wanted : Nat}
    (h : wanted ≤ c.ready.length ∨ c.pending = []) : c.Fills wanted [] c where
  toPulls := .refl c
  faultless := rfl
  index := rfl
  enough := h.imp_left fun ready => by
    simp only [Cursor.index, buffered]
    omega
  needed front rest split more := absurd (List.append_eq_nil_iff.mp split.symm).2 more

theorem Fills.keep {c d : Cursor} {wanted : Nat} {t : Token} {more pulled : List Outcome}
    (few : c.ready.length < wanted)
    (h : { c.keep t with pending := more }.Fills wanted pulled d) :
    { c with pending := .ok t :: more }.Fills wanted (.ok t :: pulled) d where
  toPulls := (pulls_keep c t more).trans h.toPulls
  faultless := h.faultless
  index := h.index.trans (index_keep c t)
  enough := by
    have enough := h.enough
    rwa [show ({ c.keep t with pending := more } : Cursor).index = c.index from index_keep c t]
      at enough
  needed front rest split some := by
    cases front with
    | nil =>
      change c.passed.length + 1 + c.ready.length + 0 ≤ c.passed.length + wanted
      omega
    | cons o front =>
      obtain ⟨rfl, same⟩ := List.cons.inj split
      have needed := h.needed front rest same some
      rw [(pulls_keep c t more).buffered,
        show ({ c.keep t with pending := more } : Cursor).index = c.index from index_keep c t,
        Nat.add_assoc, ← List.length_append, ← List.filterMap_append] at needed
      exact needed

theorem fills_of_readFrom {wanted : Nat} {pending : List Outcome} {c d : Cursor}
    (h : readFrom wanted pending c = .ok () d) :
    ∃ pulled, { c with pending }.Fills wanted pulled d := by
  induction pending generalizing c with
  | nil =>
    cases h
    exact ⟨[], .refl (.inr rfl)⟩
  | cons o more ih =>
    cases o with
    | ok t =>
      rw [readFrom] at h
      split at h
      · next enough =>
        cases h
        exact ⟨[], .refl (.inl enough)⟩
      · next few =>
        obtain ⟨pulled, fills⟩ := ih h
        exact ⟨_, .keep (Nat.lt_of_not_le few) fills⟩
    | error e =>
      rw [readFrom] at h
      split at h
      · next enough =>
        cases h
        exact ⟨[], .refl (.inl enough)⟩
      · cases h

/-- Reading has met an error, which is pending no longer. -/
structure Stops (c : Cursor) (e : LexError) (pulled : List Outcome) (d : Cursor) : Prop
    extends c.Pulls pulled d where
  fault : pulled.filterMap Outcome.error? = [e]

theorem stops_of_readFrom {wanted : Nat} {pending : List Outcome} {c d : Cursor} {e : LexError}
    (h : readFrom wanted pending c = .error e d) :
    ∃ pulled, { c with pending }.Stops e pulled d ∧ d.index = c.index := by
  induction pending generalizing c with
  | nil => cases h
  | cons o more ih =>
    cases o with
    | ok t =>
      rw [readFrom] at h
      split at h
      · cases h
      · obtain ⟨pulled, stops, index⟩ := ih h
        exact ⟨_, ⟨(pulls_keep c t more).trans stops.toPulls, stops.fault⟩,
          index.trans (index_keep c t)⟩
    | error f =>
      rw [readFrom] at h
      split at h
      · cases h
      · cases h
        exact ⟨[.error e], ⟨⟨rfl, (List.append_nil _).symm, (List.append_nil _).symm⟩, rfl⟩, rfl⟩

/-- So many tokens further on, or at the last one if there are fewer, and no error was met. -/
structure Goes (c : Cursor) (steps : Nat) (pulled : List Outcome) (d : Cursor) : Prop
    extends c.Pulls pulled d where
  faultless : pulled.filterMap Outcome.error? = []
  index : d.index = min (c.index + steps) (d.buffered - 1)
  enough : c.index + steps < d.buffered ∨ d.pending = []

theorem Goes.refl (c : Cursor) : c.Goes 0 [] c where
  toPulls := .refl c
  faultless := rfl
  index := by
    have inside := c.index_lt_buffered
    omega
  enough := .inl c.index_lt_buffered

theorem Fills.goes {c d : Cursor} {wanted : Nat} {pulled : List Outcome}
    (h : c.Fills wanted pulled d) : c.Goes 0 pulled d where
  toPulls := h.toPulls
  faultless := h.faultless
  index := by
    have inside := d.index_lt_buffered
    have same := h.index
    omega
  enough := .inl (h.index ▸ d.index_lt_buffered)

theorem Goes.trans {c d e : Cursor} {m n : Nat} {first second : List Outcome}
    (h : c.Goes m first d) (g : d.Goes n second e) : c.Goes (m + n) (first ++ second) e := by
  have moved := h.index
  have further := g.index
  have more := g.buffered
  have inside := d.index_lt_buffered
  -- Where nothing is pending any more, nothing is read.
  have ended (none : d.pending = []) : e.pending = [] ∧ e.buffered = d.buffered := by
    have split := g.pending
    rw [none] at split
    obtain ⟨rfl, last⟩ := List.append_eq_nil_iff.mp split.symm
    exact ⟨last, g.buffered⟩
  refine ⟨h.toPulls.trans g.toPulls, ?_, ?_, ?_⟩
  · rw [List.filterMap_append, h.faultless, g.faultless, List.append_nil]
  · rcases h.enough with enough | none
    · omega
    · obtain ⟨-, same⟩ := ended none
      omega
  · rcases h.enough with enough | none
    · refine g.enough.imp_left fun behind => ?_
      omega
    · exact .inr (ended none).1

theorem buffer_step (c : Cursor) : c.step.buffer = c.buffer := by
  unfold step
  split
  · rfl
  · next t more ready => simp [buffer, ready]

theorem buffered_step (c : Cursor) : c.step.buffered = c.buffered := by
  rw [← length_buffer, buffer_step, length_buffer]

theorem index_step (c : Cursor) : c.step.index = min (c.index + 1) (c.buffered - 1) := by
  unfold step
  split
  · next ready =>
    simp only [index, buffered, ready, List.length_nil]
    omega
  · next t more ready =>
    simp only [index, buffered, ready, List.length_cons]
    omega

theorem Fills.goes_step {c d : Cursor} {pulled : List Outcome} (h : c.Fills 1 pulled d) :
    c.Goes 1 pulled d.step where
  pending := by
    rw [h.pending, step]
    split <;> rfl
  buffer := (buffer_step d).trans h.buffer
  comments := by
    rw [← h.comments, step]
    split <;> rfl
  faultless := h.faultless
  index := by rw [index_step, buffered_step, h.index]
  enough := by
    rw [buffered_step, step]
    refine h.enough.imp_right fun none => ?_
    split <;> exact none

section Actions

variable {α β : Type} {c d : Cursor} {e : LexError}

theorem bind_error {action : Action α} {next : α → Action β} :
    (action >>= next) c = .error e d ↔
      action c = .error e d ∨ ∃ a f, action c = .ok a f ∧ next a f = .error e d := by
  simp only [bind, EStateM.bind]
  cases action c with
  | ok a f =>
    constructor
    · exact fun run => .inr ⟨a, f, rfl, run⟩
    · rintro (⟨⟨⟩⟩ | ⟨b, g, ⟨⟩, run⟩)
      exact run
  | error x f => simp

theorem fills_of_tokenAhead {distance : Nat} {t : Token} (h : tokenAhead distance c = .ok t d) :
    t = d.peek distance ∧ ∃ pulled, c.Fills distance pulled d := by
  obtain ⟨_, f, filled, result⟩ := bind_ok.mp h
  rw [get_bind] at result
  obtain ⟨rfl, rfl⟩ := pure_ok.mp result
  exact ⟨rfl, fills_of_readFrom filled⟩

theorem stops_of_tokenAhead {distance : Nat} (h : tokenAhead distance c = .error e d) :
    ∃ pulled, c.Stops e pulled d ∧ d.index = c.index := by
  rcases bind_error.mp h with stopped | ⟨_, f, -, result⟩
  · exact stops_of_readFrom stopped
  · cases result

theorem goes_of_next {t : Token} (h : next c = .ok t d) : ∃ pulled, c.Goes 0 pulled d := by
  obtain ⟨-, pulled, fills⟩ := fills_of_tokenAhead h
  exact ⟨pulled, fills.goes⟩

theorem goes_of_advance (h : advance c = .ok () d) : ∃ pulled, c.Goes 1 pulled d := by
  obtain ⟨_, f, filled, result⟩ := bind_ok.mp h
  obtain ⟨pulled, fills⟩ := fills_of_readFrom filled
  cases result
  exact ⟨pulled, fills.goes_step⟩

theorem stops_of_advance (h : advance c = .error e d) :
    ∃ pulled, c.Stops e pulled d ∧ d.index = c.index := by
  rcases bind_error.mp h with stopped | ⟨_, f, -, result⟩
  · exact stops_of_readFrom stopped
  · cases result

theorem Goes.stops {f : Cursor} {n : Nat} {first second : List Outcome} (h : c.Goes n first d)
    (g : d.Stops e second f) : c.Stops e (first ++ second) f :=
  ⟨h.toPulls.trans g.toPulls, by rw [List.filterMap_append, h.faultless, g.fault]; rfl⟩

theorem goes_of_tokenAt {number : Nat} {t : Token} (h : tokenAt number c = .ok t d) :
    ∃ pulled, c.Goes 0 pulled d := by
  rw [tokenAt, get_bind] at h
  split at h
  · obtain ⟨-, rfl⟩ := pure_ok.mp h
    exact ⟨[], .refl d⟩
  · obtain ⟨-, pulled, fills⟩ := fills_of_tokenAhead h
    exact ⟨pulled, fills.goes⟩

theorem stops_of_tokenAt {number : Nat} (h : tokenAt number c = .error e d) :
    ∃ pulled, c.Stops e pulled d ∧ d.index = c.index := by
  rw [tokenAt, get_bind] at h
  split at h
  · cases h
  · exact stops_of_tokenAhead h

theorem goes_of_nextMatchesAny {patterns : List Pattern} {matched : Bool}
    (h : nextMatchesAny patterns c = .ok matched d) : ∃ pulled, c.Goes 0 pulled d := by
  obtain ⟨t, f, following, result⟩ := bind_ok.mp h
  obtain ⟨-, rfl⟩ := pure_ok.mp result
  exact goes_of_next following

theorem stops_of_nextMatchesAny {patterns : List Pattern}
    (h : nextMatchesAny patterns c = .error e d) :
    ∃ pulled, c.Stops e pulled d ∧ d.index = c.index := by
  rcases bind_error.mp h with stopped | ⟨_, f, -, result⟩
  · exact stops_of_tokenAhead stopped
  · cases result

theorem goes_of_consume {pattern : Pattern} {taken : Bool} (h : consume pattern c = .ok taken d) :
    ∃ pulled, c.Goes (if taken then 1 else 0) pulled d := by
  rw [consume, get_bind] at h
  split at h
  · obtain ⟨_, f, moved, result⟩ := bind_ok.mp h
    obtain ⟨rfl, rfl⟩ := pure_ok.mp result
    exact goes_of_advance moved
  · obtain ⟨rfl, rfl⟩ := pure_ok.mp h
    exact ⟨[], .refl d⟩

theorem stops_of_consume {pattern : Pattern} (h : consume pattern c = .error e d) :
    ∃ pulled, c.Stops e pulled d ∧ d.index = c.index := by
  rw [consume, get_bind] at h
  split at h
  · rcases bind_error.mp h with stopped | ⟨_, f, -, result⟩
    · exact stops_of_advance stopped
    · cases result
  · cases h

theorem goes_of_consumeNext {pattern : Pattern} {taken : Bool}
    (h : consumeNext pattern c = .ok taken d) :
    ∃ pulled, c.Goes (if taken then 2 else 0) pulled d := by
  obtain ⟨t, f, following, h⟩ := bind_ok.mp h
  obtain ⟨ahead, looked⟩ := goes_of_next following
  split at h
  · obtain ⟨_, g, first, h⟩ := bind_ok.mp h
    obtain ⟨_, i, second, result⟩ := bind_ok.mp h
    obtain ⟨rfl, rfl⟩ := pure_ok.mp result
    obtain ⟨_, moved⟩ := goes_of_advance first
    obtain ⟨_, further⟩ := goes_of_advance second
    exact ⟨_, looked.trans (moved.trans further)⟩
  · obtain ⟨rfl, rfl⟩ := pure_ok.mp h
    exact ⟨ahead, looked⟩

/-- The error may also be met behind the first of the two tokens. -/
theorem stops_of_consumeNext {pattern : Pattern} (h : consumeNext pattern c = .error e d) :
    ∃ pulled, c.Stops e pulled d ∧ (d.index = c.index ∨ d.index = c.index + 1) := by
  rcases bind_error.mp h with stopped | ⟨t, f, following, h⟩
  · obtain ⟨pulled, stops, same⟩ := stops_of_tokenAhead stopped
    exact ⟨pulled, stops, .inl same⟩
  obtain ⟨_, looked⟩ := goes_of_next following
  have stays := looked.index
  have inside := c.index_lt_buffered
  have more := looked.buffered
  split at h
  · rcases bind_error.mp h with stopped | ⟨_, g, first, h⟩
    · obtain ⟨_, stops, same⟩ := stops_of_advance stopped
      exact ⟨_, looked.stops stops, .inl (by omega)⟩
    rcases bind_error.mp h with stopped | ⟨_, i, -, result⟩
    · obtain ⟨_, moved⟩ := goes_of_advance first
      obtain ⟨_, stops, same⟩ := stops_of_advance stopped
      have further := moved.index
      have evenMore := moved.buffered
      exact ⟨_, (looked.trans moved).stops stops, by omega⟩
    · cases result
  · cases h

end Actions

end Cursor

end LuaFrontend
