import LuaFrontend.Proofs.CursorReading
import LuaFrontend.Proofs.TokenizerPartition
import LuaFrontend.Proofs.TokenSequence

set_option autoImplicit false

namespace LuaFrontend

open LuaFrontend.Parser (bind_ok pure_ok get_bind)

/-- What can be asked of a cursor. -/
inductive Request where
  | current
  | next
  | tokenAt (number : Nat)
  | lookahead (distance : Nat)
  | advance
  | matchesAny (patterns : List Pattern)
  | nextMatchesAny (patterns : List Pattern)
  | consume (pattern : Pattern)
  | consumeNext (pattern : Pattern)
  | endsBlock
  | comments
  | takeComments

/-- What a request is answered with. -/
inductive Answer (τ : Type) where
  | done
  | token (t : τ)
  | truth (b : Bool)
  | comments (comments : List τ)
  | taken (comments : List τ)

namespace Request

def run : Request → Cursor.Action (Answer Token)
  | current => return .token (← get).current
  | next => return .token (← Cursor.next)
  | tokenAt number => return .token (← Cursor.tokenAt number)
  | lookahead distance => return .token (← Cursor.lookahead distance)
  | advance => do
    Cursor.advance
    return .done
  | matchesAny patterns => return .truth ((← get).matchesAny patterns)
  | nextMatchesAny patterns => return .truth (← Cursor.nextMatchesAny patterns)
  | consume pattern => return .truth (← Cursor.consume pattern)
  | consumeNext pattern => return .truth (← Cursor.consumeNext pattern)
  | endsBlock => return .truth (← get).current.endsBlock
  | comments => return .comments (← get).comments
  | takeComments => return .taken (← Cursor.takeComments)

/-- How many tokens the cursor moves on if this is the answer. -/
def strides {τ : Type} : Request → Answer τ → Nat
  | advance, _ => 1
  | consume _, .truth taken => if taken then 1 else 0
  | consumeNext _, .truth taken => if taken then 2 else 0
  | _, _ => 0

variable {request : Request} {c d : Cursor} {answer : Answer Token} {e : LexError}

theorem bind_pure_ok {α : Type} {action : Cursor.Action α} {f : α → Answer Token}
    (h : (action >>= fun a => pure (f a)) c = .ok answer d) :
    ∃ a, action c = .ok a d ∧ answer = f a := by
  obtain ⟨a, _, run, result⟩ := bind_ok.mp h
  obtain ⟨rfl, rfl⟩ := pure_ok.mp result
  exact ⟨a, run, rfl⟩

theorem bind_pure_error {α : Type} {action : Cursor.Action α} {f : α → Answer Token}
    (h : (action >>= fun a => pure (f a)) c = .error e d) : action c = .error e d := by
  rcases Cursor.bind_error.mp h with run | ⟨a, f, -, result⟩
  · exact run
  · cases result

/-- An answer: the cursor has read on and moved. Only taking the comments away is different. -/
theorem goes_of_run (h : request.run c = .ok answer d) :
    (∃ pulled, c.Goes (request.strides answer) pulled d ∧ ∀ comments, answer ≠ .taken comments) ∨
      request = .takeComments ∧ answer = .taken c.comments ∧ d = { c with aside := [] } := by
  cases request with
  | current =>
    cases h
    exact .inl ⟨[], .refl c, nofun⟩
  | next =>
    obtain ⟨t, run, rfl⟩ := bind_pure_ok h
    obtain ⟨pulled, goes⟩ := Cursor.goes_of_next run
    exact .inl ⟨pulled, goes, nofun⟩
  | tokenAt number =>
    obtain ⟨t, run, rfl⟩ := bind_pure_ok h
    obtain ⟨pulled, goes⟩ := Cursor.goes_of_tokenAt run
    exact .inl ⟨pulled, goes, nofun⟩
  | lookahead distance =>
    obtain ⟨t, run, rfl⟩ := bind_pure_ok h
    obtain ⟨pulled, goes⟩ := Cursor.goes_of_tokenAt run
    exact .inl ⟨pulled, goes, nofun⟩
  | advance =>
    obtain ⟨_, run, rfl⟩ := bind_pure_ok h
    obtain ⟨pulled, goes⟩ := Cursor.goes_of_advance run
    exact .inl ⟨pulled, goes, nofun⟩
  | matchesAny patterns =>
    cases h
    exact .inl ⟨[], .refl c, nofun⟩
  | nextMatchesAny patterns =>
    obtain ⟨matched, run, rfl⟩ := bind_pure_ok h
    obtain ⟨pulled, goes⟩ := Cursor.goes_of_nextMatchesAny run
    exact .inl ⟨pulled, goes, nofun⟩
  | consume pattern =>
    obtain ⟨taken, run, rfl⟩ := bind_pure_ok h
    obtain ⟨pulled, goes⟩ := Cursor.goes_of_consume run
    exact .inl ⟨pulled, goes, nofun⟩
  | consumeNext pattern =>
    obtain ⟨taken, run, rfl⟩ := bind_pure_ok h
    obtain ⟨pulled, goes⟩ := Cursor.goes_of_consumeNext run
    exact .inl ⟨pulled, goes, nofun⟩
  | endsBlock =>
    cases h
    exact .inl ⟨[], .refl c, nofun⟩
  | comments =>
    cases h
    exact .inl ⟨[], .refl c, nofun⟩
  | takeComments =>
    cases h
    exact .inr ⟨rfl, rfl, rfl⟩

theorem stops_of_run (h : request.run c = .error e d) :
    ∃ pulled, c.Stops e pulled d ∧ (d.index = c.index ∨
      (∃ pattern, request = .consumeNext pattern) ∧ d.index = c.index + 1) := by
  have stays (stopped : ∃ pulled, c.Stops e pulled d ∧ d.index = c.index) :
      ∃ pulled, c.Stops e pulled d ∧ (d.index = c.index ∨
        (∃ pattern, request = .consumeNext pattern) ∧ d.index = c.index + 1) := by
    obtain ⟨pulled, stops, same⟩ := stopped
    exact ⟨pulled, stops, .inl same⟩
  cases request with
  | current => cases h
  | next => exact stays (Cursor.stops_of_tokenAhead (bind_pure_error h))
  | tokenAt number => exact stays (Cursor.stops_of_tokenAt (bind_pure_error h))
  | lookahead distance => exact stays (Cursor.stops_of_tokenAt (bind_pure_error h))
  | advance => exact stays (Cursor.stops_of_advance (bind_pure_error h))
  | matchesAny patterns => cases h
  | nextMatchesAny patterns =>
    exact stays (Cursor.stops_of_nextMatchesAny (bind_pure_error h))
  | consume pattern => exact stays (Cursor.stops_of_consume (bind_pure_error h))
  | consumeNext pattern =>
    obtain ⟨pulled, stops, moved⟩ := Cursor.stops_of_consumeNext (bind_pure_error h)
    exact ⟨pulled, stops, moved.imp_right fun further => ⟨⟨pattern, rfl⟩, further⟩⟩
  | endsBlock => cases h
  | comments => cases h
  | takeComments => cases h

end Request

/-- A cursor that is asked, with the errors that it reported and the comments it gave away. -/
structure Cursor.Session where
  cursor : Cursor
  errors : List LexError
  taken : List Token

namespace Cursor.Session

/-- At a cursor that has not been asked yet. -/
def begin (c : Cursor) : Session := ⟨c, [], []⟩

/-- After one more request, which may be met with an error. -/
def ask (s : Session) (request : Request) : Session :=
  match request.run s.cursor with
  | .ok (.taken comments) c => { s with cursor := c, taken := s.taken ++ comments }
  | .ok _ c => { s with cursor := c }
  | .error e c => { s with cursor := c, errors := s.errors ++ [e] }

/-- After all these requests. -/
def askAll (s : Session) (requests : List Request) : Session := requests.foldl ask s

/-- These outcomes have been read: their tokens are in the buffer, their comments have been taken
away or are still aside, and each of their errors has been reported. -/
structure IsBehind (outcomes : List Outcome) (s : Session) : Prop where
  buffer : s.cursor.buffer = outcomes.filterMap Outcome.token?
  comments : s.taken ++ s.cursor.comments = outcomes.filterMap Outcome.comment?
  errors : s.errors = outcomes.filterMap Outcome.error?

variable {s : Session} {outcomes pulled : List Outcome} {d : Cursor}

theorem IsBehind.pulls (h : s.IsBehind outcomes) (pulls : s.cursor.Pulls pulled d) :
    IsBehind (outcomes ++ pulled)
      { s with cursor := d, errors := s.errors ++ pulled.filterMap Outcome.error? } where
  buffer := by rw [pulls.buffer, h.buffer, List.filterMap_append]
  comments := by
    rw [pulls.comments, List.filterMap_append, ← h.comments, List.append_assoc]
  errors := by rw [h.errors, List.filterMap_append]

/-- Where nothing faulty is read, nothing is reported. -/
theorem IsBehind.faultless (h : s.IsBehind outcomes) (pulls : s.cursor.Pulls pulled d)
    (faultless : pulled.filterMap Outcome.error? = []) :
    IsBehind (outcomes ++ pulled) { s with cursor := d } := by
  have behind := h.pulls pulls
  rwa [faultless, List.append_nil] at behind

/-- A request reads on in what is pending. -/
theorem IsBehind.ask (h : s.IsBehind outcomes) (request : Request) :
    ∃ pulled, s.cursor.pending = pulled ++ (s.ask request).cursor.pending ∧
      (s.ask request).IsBehind (outcomes ++ pulled) := by
  unfold Session.ask
  cases run : request.run s.cursor with
  | ok answer d =>
    rcases Request.goes_of_run run with ⟨pulled, goes, other⟩ | ⟨-, rfl, rfl⟩
    · have behind := h.faultless goes.toPulls goes.faultless
      cases answer with
      | taken comments => exact absurd rfl (other comments)
      | done => exact ⟨pulled, goes.pending, behind⟩
      | token t => exact ⟨pulled, goes.pending, behind⟩
      | truth b => exact ⟨pulled, goes.pending, behind⟩
      | comments comments => exact ⟨pulled, goes.pending, behind⟩
    · refine ⟨[], rfl, ?_⟩
      rw [List.append_nil]
      exact ⟨h.buffer, by rw [← h.comments]; exact List.append_nil _, h.errors⟩
  | error e d =>
    obtain ⟨pulled, stops, -⟩ := Request.stops_of_run run
    have behind := h.pulls stops.toPulls
    rw [stops.fault] at behind
    exact ⟨pulled, stops.pending, behind⟩

theorem IsBehind.askAll (h : s.IsBehind outcomes) (requests : List Request) :
    ∃ pulled, s.cursor.pending = pulled ++ (s.askAll requests).cursor.pending ∧
      (s.askAll requests).IsBehind (outcomes ++ pulled) := by
  induction requests generalizing s outcomes with
  | nil => exact ⟨[], rfl, by rwa [List.append_nil]⟩
  | cons request requests ih =>
    obtain ⟨first, split, behind⟩ := h.ask request
    obtain ⟨second, further, last⟩ := ih behind
    refine ⟨first ++ second, ?_, ?_⟩
    · rw [split, further, List.append_assoc]
      rfl
    · rw [← List.append_assoc]
      exact last

end Cursor.Session

namespace Lexed

/-- All that is read of a text, the end token included. -/
def outcomes (l : Lexed) : List Outcome := l.items ++ [.ok l.final]

variable (dialect : Dialect) (source : String)

/-- The calls of a tokenizer up to its end give the outcomes of the text. -/
theorem getElem?_outcomes {number : Nat}
    (h : number < (ofSource dialect source).outcomes.length) :
    (ofSource dialect source).outcomes[number]? =
      some ((Tokenizer.ofSource dialect source).after number).next.1 := by
  have calls := (Tokenizer.isPartition_pieces dialect source).outcomes
  simp only [outcomes, ofSource, Tokenizer.items_ofTokenizer, Tokenizer.final_ofTokenizer] at h ⊢
  rw [List.length_append, List.length_map, List.length_singleton] at h
  generalize Tokenizer.ofSource dialect source = t at calls h ⊢
  by_cases inside : number < (Tokenizer.pieces t.rest.length t).length
  · rw [List.getElem?_append_left (by rwa [List.length_map]), List.getElem?_map,
      List.getElem?_eq_getElem inside, calls number inside]
    rfl
  · obtain rfl : number = (Tokenizer.pieces t.rest.length t).length := by omega
    rw [List.getElem?_append_right (by rw [List.length_map]), List.length_map, Nat.sub_self,
      Tokenizer.next_of_isDone (Tokenizer.isDone_after_pieces (Nat.le_refl _))]
    rfl

/-- What has been read from the front of a text are the results of the first calls. -/
theorem results_of_append {front pending : List Outcome}
    (h : (ofSource dialect source).outcomes = front ++ pending) :
    (Tokenizer.ofSource dialect source).results front.length = front := by
  apply List.ext_getElem?
  intro number
  rw [Tokenizer.results, List.getElem?_map]
  by_cases inside : number < front.length
  · have within : number < (ofSource dialect source).outcomes.length := by
      rw [h, List.length_append]
      omega
    have call := getElem?_outcomes dialect source within
    rw [h, List.getElem?_append_left inside] at call
    rw [List.getElem?_range inside, call]
    rfl
  · have outside : front.length ≤ number := Nat.le_of_not_lt inside
    rw [List.getElem?_eq_none outside, List.getElem?_eq_none (by rwa [List.length_range])]
    rfl

/-- The end token is read last, and by nobody who has not read everything. -/
theorem isEnd_of_append {front pending : List Outcome}
    (h : (ofSource dialect source).outcomes = front ++ pending) :
    (∃ before, front = before ++ [.ok (ofSource dialect source).final] ∧ pending = [] ∧
      ∀ t, .ok t ∈ before → t.isEnd = false) ∨
    pending ≠ [] ∧ ∀ t, .ok t ∈ front → t.isEnd = false := by
  rcases List.eq_nil_or_concat pending with rfl | ⟨others, o, rfl⟩
  · rw [List.append_nil] at h
    exact .inl ⟨_, h.symm, rfl, fun t => isEnd_of_mem_items dialect source⟩
  · rw [List.concat_eq_append] at h ⊢
    rw [← List.append_assoc] at h
    have same := (List.append_inj' h rfl).1
    refine .inr ⟨by simp, fun t member => isEnd_of_mem_items dialect source ?_⟩
    rw [same]
    exact List.mem_append_left _ member

end Lexed

theorem Token.isComment_of_isEnd {t : Token} (h : t.isEnd) : t.isComment = false := by
  simp only [isEnd, beq_iff_eq] at h
  simp [isComment, h]

theorem Outcome.mem_of_token? {outcomes : List Outcome} {t : Token}
    (h : t ∈ outcomes.filterMap Outcome.token?) : .ok t ∈ outcomes := by
  obtain ⟨o, member, same⟩ := List.mem_filterMap.mp h
  cases o with
  | ok u =>
    simp only [Outcome.token?] at same
    split at same
    · cases same
    · obtain rfl := Option.some.inj same
      exact member
  | error e => cases same

namespace Cursor

variable {dialect : Dialect} {source : String} {c d : Cursor} {front pulled : List Outcome}

/-- A cursor at the beginning of a text has read up to the first token. -/
theorem outcomes_of_opening {final : Token} {aside : List Token} {items : List Outcome}
    (h : opening dialect final aside items = .ok c) (last : final.isEnd) :
    ∃ front, items ++ [.ok final] = front ++ c.pending ∧
      c.buffer = front.filterMap Outcome.token? ∧
      c.comments = aside.reverse ++ front.filterMap Outcome.comment? ∧
      front.filterMap Outcome.error? = [] := by
  induction items generalizing aside with
  | nil =>
    cases h
    have other := Token.isComment_of_isEnd last
    refine ⟨[.ok final], rfl, ?_, ?_, rfl⟩
    · simp [buffer, Outcome.token?, other]
    · simp [comments, Outcome.comment?, other]
  | cons o items ih =>
    cases o with
    | error e => cases h
    | ok t =>
      rw [opening] at h
      split at h
      · next comment =>
        obtain ⟨front, split, buffer, comments, faultless⟩ := ih h
        refine ⟨.ok t :: front, congrArg (List.cons (Except.ok t)) split, ?_, ?_, faultless⟩
        · simpa [Outcome.token?, comment] using buffer
        · simpa [Outcome.comment?, comment] using comments
      · next token =>
        cases h
        refine ⟨[.ok t], rfl, ?_, ?_, rfl⟩
        · simp [buffer, Outcome.token?, token]
        · simp [comments, Outcome.comment?, token]

section Ends

variable (buffer : c.buffer = front.filterMap Outcome.token?)
  (split : (Lexed.ofSource dialect source).outcomes = front ++ c.pending)

include buffer split

/-- The end has been read when nothing is pending. -/
theorem isEndRead_iff : c.isEndRead ↔ c.pending = [] := by
  have latest := c.getLast?_buffer
  have final := Lexed.isEnd_final dialect source
  rw [buffer] at latest
  rcases Lexed.isEnd_of_append dialect source split with ⟨before, rfl, none, -⟩ | ⟨more, inside⟩
  · simp only [List.filterMap_append, List.filterMap_cons, Outcome.token?,
      Token.isComment_of_isEnd final] at latest
    simp at latest
    simp [isEndRead, ← latest, final, none]
  · have member := Outcome.mem_of_token? (List.mem_of_getLast? latest)
    simp [isEndRead, inside _ member, more]

/-- No token is behind the end token. -/
theorem isEnd_of_mem_dropLast {t : Token} (h : t ∈ c.buffer.dropLast) : t.isEnd = false := by
  have final := Lexed.isEnd_final dialect source
  rw [buffer] at h
  rcases Lexed.isEnd_of_append dialect source split with ⟨before, rfl, -, inside⟩ | ⟨-, inside⟩
  · simp only [List.filterMap_append, List.filterMap_cons, Outcome.token?,
      Token.isComment_of_isEnd final] at h
    simp only [Bool.false_eq_true, if_false, List.filterMap_nil, List.dropLast_concat] at h
    exact inside t (Outcome.mem_of_token? h)
  · exact inside t (Outcome.mem_of_token? ((List.dropLast_sublist _).subset h))

end Ends

/-- Looking ahead shows an item of the buffer. -/
theorem getElem?_buffer_peek (c : Cursor) (distance : Nat) :
    c.buffer[min (c.index + distance) (c.buffered - 1)]? = some (c.peek distance) := by
  by_cases inside : distance ≤ c.ready.length
  · have same : min (c.index + distance) (c.buffered - 1) = c.passed.reverse.length + distance := by
      simp only [index, buffered, List.length_reverse]
      omega
    have within : distance < (c.current :: c.ready).length := by
      rw [List.length_cons]
      omega
    rw [same, buffer, List.getElem?_append_right (Nat.le_add_right _ _), Nat.add_sub_cancel_left,
      peek, List.getElem?_eq_getElem within]
    rfl
  · have outside : (c.current :: c.ready).length ≤ distance := by
      rw [List.length_cons]
      omega
    have same : min (c.index + distance) (c.buffered - 1) = c.buffer.length - 1 := by
      rw [length_buffer]
      simp only [index, buffered]
      omega
    rw [same, ← List.getLast?_eq_getElem?, getLast?_buffer, peek, List.getElem?_eq_none outside]
    rfl

/-- The token with a number is that item of the buffer, or the last one; only as much is read as it
takes. -/
theorem tokenAt_ok {number : Nat} {t : Token} (h : tokenAt number c = .ok t d) :
    d.buffer[min number (d.buffered - 1)]? = some t ∧
      ∃ pulled, c.Pulls pulled d ∧ pulled.filterMap Outcome.error? = [] ∧ d.index = c.index ∧
        (number < d.buffered ∨ d.pending = []) ∧
        ∀ front rest, pulled = front ++ rest → rest ≠ [] →
          c.buffered + (front.filterMap Outcome.token?).length ≤ number := by
  rw [tokenAt, get_bind] at h
  split at h
  · next before =>
    obtain ⟨rfl, rfl⟩ := pure_ok.mp h
    have inside := d.index_lt_buffered
    refine ⟨?_, [], .refl d, rfl, rfl, .inl (by omega), fun front rest split more => ?_⟩
    · have within : number < d.passed.reverse.length := by rwa [List.length_reverse]
      have mirrored : d.index - 1 - number < d.passed.length := by
        simp only [index] at before ⊢
        omega
      rw [Nat.min_eq_left (by omega), buffer, List.getElem?_append_left within,
        List.getElem?_reverse (by rwa [List.length_reverse] at within),
        List.getElem?_eq_getElem mirrored]
      exact List.getElem?_eq_getElem mirrored
    · exact absurd (List.append_eq_nil_iff.mp split.symm).2 more
  · next behind =>
    obtain ⟨rfl, pulled, fills⟩ := fills_of_tokenAhead h
    have whole : c.index + (number - c.index) = number := by omega
    have needed := fills.needed
    have enough := fills.enough
    have shown := d.getElem?_buffer_peek (number - c.index)
    rw [whole] at needed enough
    rw [fills.index, whole] at shown
    exact ⟨shown, pulled, fills.toPulls, fills.faultless, fills.index, enough, needed⟩

end Cursor

/-- An answer moves the index by as many tokens as there are, until the end has been read. -/
theorem Request.moves_of_run {dialect : Dialect} {source : String} {request : Request}
    {answer : Answer Token} {c d : Cursor} {front : List Outcome}
    (buffer : c.buffer = front.filterMap Outcome.token?)
    (split : (Lexed.ofSource dialect source).outcomes = front ++ c.pending)
    (h : request.run c = .ok answer d) :
    d.index = min (c.index + request.strides answer) (d.buffered - 1) ∧
      (c.index + request.strides answer < d.buffered ∨ d.isEndRead) := by
  rcases goes_of_run h with ⟨pulled, goes, -⟩ | ⟨rfl, rfl, rfl⟩
  · refine ⟨goes.index, goes.enough.imp_right fun none => ?_⟩
    have read : d.buffer = (front ++ pulled).filterMap Outcome.token? := by
      rw [goes.buffer, buffer, List.filterMap_append]
    rw [goes.pending, ← List.append_assoc] at split
    exact (Cursor.isEndRead_iff read split).mpr none
  · have inside := c.index_lt_buffered
    change c.index = min (c.index + 0) (c.buffered - 1) ∧ (c.index + 0 < c.buffered ∨ _)
    exact ⟨by omega, .inl (by omega)⟩

namespace Cursor.Session.IsBehind

variable {dialect : Dialect} {source : String} {s : Session} {front : List Outcome}

theorem tokenAt (h : s.IsBehind front)
    (split : (Lexed.ofSource dialect source).outcomes = front ++ s.cursor.pending) {number : Nat}
    {u : Token} {d : Cursor} (run : Cursor.tokenAt number s.cursor = .ok u d) :
    d.buffer[min number (d.buffered - 1)]? = some u ∧ (number < d.buffered ∨ d.isEndRead) ∧
      ∃ further, IsBehind
          ((Tokenizer.ofSource dialect source).results (front.length + further))
          { s with cursor := d } ∧
        ∀ less < further,
          (((Tokenizer.ofSource dialect source).results (front.length + less)).filterMap
            Outcome.token?).length ≤ number ∧
          ∀ v ∈ ((Tokenizer.ofSource dialect source).results (front.length + less)).filterMap
            Outcome.token?, v.isEnd = false := by
  obtain ⟨shown, pulled, pulls, faultless, -, enough, needed⟩ := Cursor.tokenAt_ok run
  have behind := h.faultless pulls faultless
  rw [pulls.pending, ← List.append_assoc] at split
  refine ⟨shown, enough.imp_right fun none => ?_, pulled.length, ?_, fun less small => ?_⟩
  · exact (Cursor.isEndRead_iff behind.buffer split).mpr none
  · rw [← List.length_append, Lexed.results_of_append dialect source split]
    exact behind
  · -- Before the last call, the end was still to come and the number was not reached.
    have more : pulled.drop less ≠ [] := by
      rw [ne_eq, List.drop_eq_nil_iff]
      omega
    have parted : (Lexed.ofSource dialect source).outcomes =
        (front ++ pulled.take less) ++ (pulled.drop less ++ d.pending) := by
      rw [List.append_assoc, ← List.append_assoc (pulled.take less), List.take_append_drop, split,
        List.append_assoc]
    have calls : (front ++ pulled.take less).length = front.length + less := by
      rw [List.length_append, List.length_take, Nat.min_eq_left small.le]
    rw [← calls, Lexed.results_of_append dialect source parted]
    refine ⟨?_, fun v member => ?_⟩
    · have few := needed _ _ (List.take_append_drop less pulled).symm more
      rw [← Cursor.length_buffer, h.buffer, ← List.length_append, ← List.filterMap_append] at few
      exact few
    · rcases Lexed.isEnd_of_append dialect source parted with ⟨_, -, none, -⟩ | ⟨-, inside⟩
      · exact absurd (List.append_eq_nil_iff.mp none).1 more
      · exact inside v (Outcome.mem_of_token? member)

end Cursor.Session.IsBehind

/-- A session stands behind what has been read of the text. -/
theorem Cursor.Session.exists_isBehind {dialect : Dialect} {source : String} {c : Cursor}
    (opened : Cursor.ofSource dialect source = .ok c) (requests : List Request) :
    ∃ front, ((begin c).askAll requests).IsBehind front ∧
      (Lexed.ofSource dialect source).outcomes =
        front ++ ((begin c).askAll requests).cursor.pending := by
  rw [Cursor.ofSource, Cursor.ofLexed] at opened
  obtain ⟨front, split, buffer, comments, faultless⟩ :=
    Cursor.outcomes_of_opening opened (Lexed.isEnd_final dialect source)
  have start : (begin c).IsBehind front := ⟨buffer, comments, faultless.symm⟩
  obtain ⟨pulled, rest, behind⟩ := start.askAll requests
  refine ⟨_, behind, ?_⟩
  rw [Lexed.outcomes, split, List.append_assoc]
  exact congrArg (front ++ ·) rest

end LuaFrontend
