import LuaFrontend.Proofs.TokenCursorSession

set_option autoImplicit false

namespace LuaFrontend

namespace Lexer

/-- What a call gives. -/
abbrev Result := Except ErrorRecord TokenRecord

namespace Result

/-- The token, if it is no comment. -/
def token? : Result → Option TokenRecord
  | .ok t => if t.kind == .comment then none else some t
  | .error _ => none

def comment? : Result → Option TokenRecord
  | .ok t => if t.kind == .comment then some t else none
  | .error _ => none

def error? : Result → Option ErrorRecord
  | .ok _ => none
  | .error e => some e

variable {α β : Type}

/-- Selecting among the records is selecting among what they are records of. -/
theorem filterMap_record {f : Outcome → Option α} {g : Result → Option β} {k : α → β}
    (same : ∀ o : Outcome, g o.record = (f o).map k) (outcomes : List Outcome) :
    (outcomes.map Outcome.record).filterMap g = (outcomes.filterMap f).map k := by
  rw [List.filterMap_map, List.map_filterMap]
  exact congrArg (fun select => outcomes.filterMap select) (funext same)

theorem filterMap_token? (outcomes : List Outcome) :
    (outcomes.map Outcome.record).filterMap token? =
      (outcomes.filterMap Outcome.token?).map Token.record := by
  apply filterMap_record
  intro o
  cases o with
  | ok t =>
    simp only [Outcome.token?]
    split
    · next comment => exact if_pos comment
    · next other => exact if_neg other
  | error e => rfl

theorem filterMap_comment? (outcomes : List Outcome) :
    (outcomes.map Outcome.record).filterMap comment? =
      (outcomes.filterMap Outcome.comment?).map Token.record := by
  apply filterMap_record
  intro o
  cases o with
  | ok t =>
    simp only [Outcome.comment?]
    split
    · next comment => exact if_pos comment
    · next other => exact if_neg other
  | error e => rfl

theorem filterMap_error? (outcomes : List Outcome) :
    (outcomes.map Outcome.record).filterMap error? =
      (outcomes.filterMap Outcome.error?).map LexError.record := by
  apply filterMap_record
  intro o
  cases o <;> rfl

end Result

/-- So many calls of a lexer, from the beginning of a text on, give these results. -/
def HasGiven (dialect : Dialect) (source : String) (number : Nat) (results : List Result) : Prop :=
  ∃ l, calls number (ofSource dialect source) = some (results, l)

theorem hasGiven_iff {dialect : Dialect} {source : String} {number : Nat} {results : List Result} :
    HasGiven dialect source number results ↔
      results = ((Tokenizer.ofSource dialect source).results number).map Outcome.record := by
  obtain ⟨l, run, -⟩ := (awaits_ofSource dialect source).calls number
  constructor
  · rintro ⟨m, same⟩
    rw [run] at same
    exact (Prod.mk.inj (Option.some.inj same)).1.symm
  · rintro rfl
    exact ⟨l, run⟩

end Lexer

/-- The token with this number has been read, or everything has and it is the last one. -/
structure Cursor.Shows (c : Cursor) (number : Nat) (t : Token) : Prop where
  kept : c.buffer[min number (c.buffered - 1)]? = some t
  enough : number < c.buffered ∨ c.pending = []

namespace Cursor

variable {c d : Cursor} {t : Token} {number : Nat}

theorem shows_of_tokenAt (run : tokenAt number c = .ok t d) : d.Shows number t := by
  obtain ⟨kept, _, -, -, -, enough, -⟩ := tokenAt_ok run
  exact ⟨kept, enough⟩

theorem shows_of_next (run : next c = .ok t d) : d.Shows (c.index + 1) t := by
  obtain ⟨rfl, pulled, fills⟩ := fills_of_tokenAhead run
  have shown := d.getElem?_buffer_peek 1
  rw [fills.index] at shown
  exact ⟨shown, fills.enough⟩

/-- What is shown stays where it is. -/
theorem Shows.goes {steps : Nat} {pulled : List Outcome} (h : c.Shows number t)
    (goes : c.Goes steps pulled d) : d.Shows number t := by
  have longer := goes.buffered
  have inside := c.index_lt_buffered
  rcases h.enough with enough | none
  · have place : min number (c.buffered - 1) = min number (d.buffered - 1) := by omega
    have within : min number (d.buffered - 1) < c.buffer.length := by
      rw [c.length_buffer]
      omega
    refine ⟨?_, .inl (by omega)⟩
    rw [goes.toPulls.buffer, List.getElem?_append_left within, ← place]
    exact h.kept
  · have split := goes.pending
    rw [none] at split
    obtain ⟨rfl, last⟩ := List.append_eq_nil_iff.mp split.symm
    rw [List.filterMap_nil, List.length_nil, Nat.add_zero] at longer
    refine ⟨?_, .inr last⟩
    rw [goes.toPulls.buffer, List.filterMap_nil, List.append_nil, longer]
    exact h.kept

open LuaFrontend.Parser (bind_ok pure_ok get_bind)

theorem shows_of_nextMatchesAny {patterns : List Pattern} {matched : Bool}
    (run : nextMatchesAny patterns c = .ok matched d) :
    ∃ t, d.Shows (c.index + 1) t ∧ patterns.any (·.accepts t) = matched := by
  obtain ⟨t, _, following, result⟩ := bind_ok.mp run
  obtain ⟨rfl, rfl⟩ := pure_ok.mp result
  exact ⟨t, shows_of_next following, rfl⟩

theorem accepts_of_consume {pattern : Pattern} {taken : Bool}
    (run : consume pattern c = .ok taken d) : pattern.accepts c.current = taken := by
  rw [consume, get_bind] at run
  split at run
  · next accepted =>
    obtain ⟨_, _, -, result⟩ := bind_ok.mp run
    obtain ⟨rfl, rfl⟩ := pure_ok.mp result
    exact accepted
  · next refused =>
    obtain ⟨rfl, rfl⟩ := pure_ok.mp run
    exact Bool.eq_false_iff.mpr refused

theorem shows_of_consumeNext {pattern : Pattern} {taken : Bool}
    (run : consumeNext pattern c = .ok taken d) :
    ∃ t, d.Shows (c.index + 1) t ∧ pattern.accepts t = taken := by
  obtain ⟨t, e, following, rest⟩ := bind_ok.mp run
  have shown := shows_of_next following
  refine ⟨t, ?_⟩
  split at rest
  · next accepted =>
    obtain ⟨_, f, first, rest⟩ := bind_ok.mp rest
    obtain ⟨_, g, second, result⟩ := bind_ok.mp rest
    obtain ⟨rfl, rfl⟩ := pure_ok.mp result
    obtain ⟨_, moved⟩ := goes_of_advance first
    obtain ⟨_, further⟩ := goes_of_advance second
    exact ⟨(shown.goes moved).goes further, accepted⟩
  · next refused =>
    obtain ⟨rfl, rfl⟩ := pure_ok.mp rest
    exact ⟨shown, Bool.eq_false_iff.mpr refused⟩

end Cursor

namespace TokenCursor

/-- The token with this number is in the vector, or it is the end token and that is the last one. -/
structure Shows (c : TokenCursor) (number : Nat) (t : TokenRecord) : Prop where
  kept : c.tokens[min number (c.tokens.size - 1)]? = some t
  enough : number < c.tokens.size ∨ c.isEndReached

/-- The answer that is due to a request at the one cursor, which leaves the other. -/
inductive Answers (o : Overflow) (c d : TokenCursor) : Request → Answer TokenRecord → Prop
  | current {t : TokenRecord} (h : c.tokens[c.index]? = some t) : Answers o c d .current (.token t)
  | next {t : TokenRecord} (h : d.Shows (c.index + 1) t) : Answers o c d .next (.token t)
  | tokenAt {t : TokenRecord} {number : Nat} (h : d.Shows number t) :
    Answers o c d (.tokenAt number) (.token t)
  | lookahead {t : TokenRecord} {distance number : Nat}
    (sum : o.add c.index distance = some number) (h : d.Shows number t) :
    Answers o c d (.lookahead distance) (.token t)
  | advance : Answers o c d .advance .done
  | matchesAny {t : TokenRecord} {patterns : List Pattern} (h : c.tokens[c.index]? = some t) :
    Answers o c d (.matchesAny patterns) (.truth (patterns.any (·.acceptsRecord t)))
  | nextMatchesAny {t : TokenRecord} {patterns : List Pattern} (h : d.Shows (c.index + 1) t) :
    Answers o c d (.nextMatchesAny patterns) (.truth (patterns.any (·.acceptsRecord t)))
  | consume {t : TokenRecord} {pattern : Pattern} (h : c.tokens[c.index]? = some t) :
    Answers o c d (.consume pattern) (.truth (pattern.acceptsRecord t))
  | consumeNext {t : TokenRecord} {pattern : Pattern} (h : d.Shows (c.index + 1) t) :
    Answers o c d (.consumeNext pattern) (.truth (pattern.acceptsRecord t))
  | endsBlock {t : TokenRecord} (h : c.tokens[c.index]? = some t) :
    Answers o c d .endsBlock
      (.truth (t.kind == .keyword && ["else", "elseif", "end", "until"].contains t.text))
  | comments : Answers o c d .comments (.comments c.comments.toList)
  | takeComments (h : d.comments = #[]) :
    Answers o c d .takeComments (.taken c.comments.toList)

variable {o : Overflow} {m n : TokenCursor} {c d : Cursor} {request : Request}
  {answer : Answer Token}

theorem Mirrors.shows {number : Nat} {t : Token} (h : m.Mirrors c) (shown : c.Shows number t) :
    m.Shows number t.record where
  kept := by
    rw [h.size]
    exact h.getElem? shown.kept
  enough := by
    rw [h.size]
    exact shown.enough.imp_right h.isEndReached_of_nil

theorem Mirrors.current (h : m.Mirrors c) : m.tokens[m.index]? = some c.current.record := by
  rw [h.index]
  exact h.getElem? c.getElem?_buffer_index

theorem answers_of_run (h : m.Mirrors c) (g : n.Mirrors d)
    (free : ¬ request.IsTrapped o m.index) (answered : request.run c = .ok answer d) :
    Answers o m n request (answer.map Token.record) := by
  cases request with
  | current =>
    cases answered
    exact .current h.current
  | next =>
    obtain ⟨t, run, rfl⟩ := Request.bind_pure_ok answered
    have shown := Cursor.shows_of_next run
    rw [← h.index] at shown
    exact .next (g.shows shown)
  | tokenAt number =>
    obtain ⟨t, run, rfl⟩ := Request.bind_pure_ok answered
    exact .tokenAt (g.shows (Cursor.shows_of_tokenAt run))
  | lookahead distance =>
    obtain ⟨t, run, rfl⟩ := Request.bind_pure_ok answered
    have shown := Cursor.shows_of_tokenAt run
    rw [← h.index] at shown
    exact .lookahead (Request.add_of_free free) (g.shows shown)
  | advance =>
    obtain ⟨_, -, rfl⟩ := Request.bind_pure_ok answered
    exact .advance
  | matchesAny patterns =>
    cases answered
    change Answers o m n _ (.truth (patterns.any (·.accepts c.current)))
    rw [← any_acceptsRecord]
    exact .matchesAny h.current
  | nextMatchesAny patterns =>
    obtain ⟨_, run, rfl⟩ := Request.bind_pure_ok answered
    obtain ⟨t, shown, rfl⟩ := Cursor.shows_of_nextMatchesAny run
    rw [← h.index] at shown
    rw [← any_acceptsRecord]
    exact .nextMatchesAny (g.shows shown)
  | consume pattern =>
    obtain ⟨_, run, rfl⟩ := Request.bind_pure_ok answered
    obtain rfl := Cursor.accepts_of_consume run
    rw [← acceptsRecord_record]
    exact .consume h.current
  | consumeNext pattern =>
    obtain ⟨_, run, rfl⟩ := Request.bind_pure_ok answered
    obtain ⟨t, shown, rfl⟩ := Cursor.shows_of_consumeNext run
    rw [← h.index] at shown
    rw [← acceptsRecord_record]
    exact .consumeNext (g.shows shown)
  | endsBlock =>
    cases answered
    exact .endsBlock h.current
  | comments =>
    cases answered
    change Answers o m n _ (.comments (c.comments.map Token.record))
    rw [← h.comments]
    exact .comments
  | takeComments =>
    cases answered
    change Answers o m n _ (.taken (c.comments.map Token.record))
    rw [← h.comments]
    exact .takeComments (Array.toList_inj.mp g.comments)

theorem strides_map (request : Request) (answer : Answer Token) :
    request.strides (answer.map Token.record) = request.strides answer := by
  cases request <;> cases answer <;> rfl

namespace Session

/-- These calls have been made: their tokens are in the vector, their comments have been taken away
or are still aside, and each of their errors has been reported. -/
structure IsBehind (results : List Lexer.Result) (s : Session) : Prop where
  tokens : s.cursor.tokens.toList = results.filterMap Lexer.Result.token?
  comments : s.taken ++ s.cursor.comments.toList = results.filterMap Lexer.Result.comment?
  errors : s.errors = results.filterMap Lexer.Result.error?

/-- The session stands behind this many calls of the lexer, with an index into the tokens that they
gave, and answers with these tokens. -/
structure Indexes (o : Overflow) (dialect : Dialect) (source : String) (calls : Nat) (s : Session) :
    Prop where
  behind : ∃ results, Lexer.HasGiven dialect source calls results ∧ s.IsBehind results
  isEnd : s.cursor.isEndReached ↔ ∃ last ∈ s.cursor.tokens.back?, last.kind = .endOfInput
  isEndOnce : ∀ t ∈ s.cursor.tokens.toList.dropLast, t.kind ≠ .endOfInput
  index : s.cursor.index < s.cursor.tokens.size
  /-- Nothing but a distance that is trapped is left without an answer or an error. -/
  stuck : ∀ request : Request,
    request.perform o s.cursor = none ↔ request.IsTrapped o s.cursor.index
  answers : ∀ (request : Request) answer d, request.perform o s.cursor = some (.ok answer, d) →
    Answers o s.cursor d request answer
  /-- With fewer further calls there would not be so many tokens, and no end token. -/
  tokenAt : ∀ number t d, TokenCursor.tokenAt number s.cursor = some (.ok t, d) →
    d.Shows number t ∧ ∃ further results,
      Lexer.HasGiven dialect source (calls + further) results ∧
      IsBehind results { s with cursor := d } ∧
      ∀ less < further, ∀ fewer, Lexer.HasGiven dialect source (calls + less) fewer →
        (fewer.filterMap Lexer.Result.token?).length ≤ number ∧
        ∀ u ∈ fewer.filterMap Lexer.Result.token?, u.kind ≠ .endOfInput
  /-- The index is moved by what takes tokens, and not behind the end token. -/
  moves : ∀ (request : Request) answer d, request.perform o s.cursor = some (.ok answer, d) →
    d.index = min (s.cursor.index + request.strides answer) (d.tokens.size - 1) ∧
      (s.cursor.index + request.strides answer < d.tokens.size ∨ d.isEndReached)
  /-- An error leaves the index where it was, or between the two tokens that were to be taken. -/
  stays : ∀ (request : Request) e d, request.perform o s.cursor = some (.error e, d) →
    d.index = s.cursor.index ∨
      (∃ pattern, request = .consumeNext pattern) ∧ d.index = s.cursor.index + 1

variable {dialect : Dialect} {source : String} {s : Session} {z : Cursor.Session}
  {front : List Outcome}

theorem Mirrors.isBehind (h : s.Mirrors z) (behind : z.IsBehind front) :
    s.IsBehind (front.map Outcome.record) where
  tokens := by rw [h.cursor.tokens, behind.buffer, Lexer.Result.filterMap_token?]
  comments := by
    rw [h.taken, h.cursor.comments, ← List.map_append, behind.comments,
      Lexer.Result.filterMap_comment?]
  errors := by rw [h.errors, behind.errors, Lexer.Result.filterMap_error?]

section Ends

variable (h : s.Mirrors z) (behind : z.IsBehind front)
  (split : (Lexed.ofSource dialect source).outcomes = front ++ z.cursor.pending)

include h

theorem Mirrors.isEnd :
    s.cursor.isEndReached ↔ ∃ last ∈ s.cursor.tokens.back?, last.kind = .endOfInput := by
  have latest : s.cursor.tokens.back? = some z.cursor.latest.record := by
    rw [← Array.getLast?_toList, h.cursor.tokens, List.getLast?_map, Cursor.getLast?_buffer]
    rfl
  rw [h.cursor.isEndReached, latest]
  simp [Cursor.isEndRead, Token.isEnd, Token.record]

include behind split

theorem Mirrors.isEndOnce {t : TokenRecord} (member : t ∈ s.cursor.tokens.toList.dropLast) :
    t.kind ≠ .endOfInput := by
  rw [h.cursor.tokens, ← List.map_dropLast] at member
  obtain ⟨u, inside, rfl⟩ := List.mem_map.mp member
  have other := Cursor.isEnd_of_mem_dropLast behind.buffer split inside
  exact beq_eq_false_iff_ne.mp other

theorem Mirrors.tokenAt {number : Nat} {t : TokenRecord} {d : TokenCursor}
    (run : TokenCursor.tokenAt number s.cursor = some (.ok t, d)) :
    d.Shows number t ∧ ∃ further results,
      Lexer.HasGiven dialect source (front.length + further) results ∧
      IsBehind results { s with cursor := d } ∧
      ∀ less < further, ∀ fewer, Lexer.HasGiven dialect source (front.length + less) fewer →
        (fewer.filterMap Lexer.Result.token?).length ≤ number ∧
        ∀ u ∈ fewer.filterMap Lexer.Result.token?, u.kind ≠ .endOfInput := by
  have agrees := tokenAt_agrees h.cursor number
  rw [run] at agrees
  generalize looked : Cursor.tokenAt number z.cursor = y at agrees
  cases agrees with
  | @ok u _ e further =>
    obtain ⟨-, -, more, reached, needed⟩ := behind.tokenAt split looked
    have after : Session.Mirrors { s with cursor := d } { z with cursor := e } :=
      ⟨further, h.errors, h.taken⟩
    refine ⟨further.shows (Cursor.shows_of_tokenAt looked), more, _, Lexer.hasGiven_iff.mpr rfl,
      after.isBehind reached, fun less small fewer given => ?_⟩
    obtain ⟨few, open'⟩ := needed less small
    rw [Lexer.hasGiven_iff.mp given, Lexer.Result.filterMap_token?]
    refine ⟨by rwa [List.length_map], fun v member => ?_⟩
    obtain ⟨w, inside, rfl⟩ := List.mem_map.mp member
    exact beq_eq_false_iff_ne.mp (open' w inside)

theorem Mirrors.indexes (o : Overflow) : s.Indexes o dialect source front.length where
  behind := by
    refine ⟨front.map Outcome.record, Lexer.hasGiven_iff.mpr ?_, h.isBehind behind⟩
    rw [Lexed.results_of_append dialect source split]
  isEnd := h.isEnd
  isEndOnce _ member := h.isEndOnce behind split member
  index := by
    rw [h.cursor.index, h.cursor.size]
    exact z.cursor.index_lt_buffered
  stuck request := Request.perform_eq_none_iff h.cursor
  answers request answer d run := by
    have free : ¬ request.IsTrapped o s.cursor.index := by
      intro trapped
      rw [Request.perform_of_isTrapped trapped] at run
      contradiction
    rcases Request.run_of_perform h.cursor run with ⟨a, e, answered, same, g⟩ | ⟨_, _, -, same, -⟩
    · cases same
      exact answers_of_run h.cursor g free answered
    · cases same
  tokenAt _ _ _ run := h.tokenAt behind split run
  moves request answer d run := by
    rcases Request.run_of_perform h.cursor run with ⟨a, e, answered, same, g⟩ | ⟨_, _, -, same, -⟩
    · cases same
      rw [strides_map, g.index, h.cursor.index, g.size, g.isEndReached]
      exact Request.moves_of_run behind.buffer split answered
    · cases same
  stays request e d run := by
    rcases Request.run_of_perform h.cursor run with ⟨_, _, -, same, -⟩ | ⟨x, c, failed, -, g⟩
    · cases same
    · obtain ⟨-, -, moved⟩ := Request.stops_of_run failed
      rwa [g.index, h.cursor.index]

end Ends

end Session

/-- Whatever is asked of a cursor, in any order and also behind errors, it stays an index into the
tokens that the first calls of a lexer give. None of their comments and errors is lost, and no
request fails but one that is trapped for the distance it asks for. -/
theorem askAll_indexes_calls (o : Overflow) {dialect : Dialect} {source : String} {c : TokenCursor}
    (fits : FitsMemory source) (opened : ofSource dialect source = some (.ok c))
    (requests : List Request) :
    (∃ s calls, (Session.begin c).askAll o requests = some s ∧ s.Indexes o dialect source calls) ∨
      (Session.begin c).askAll o requests = none ∧
        Session.IsTrapped o (Session.begin c) requests := by
  obtain ⟨d, started, mirrors⟩ := ofSource_ok fits opened
  have begun : (Session.begin c).Mirrors (Cursor.Session.begin d) := ⟨mirrors, rfl, rfl⟩
  rcases begun.askAll requests with ⟨s, run, further⟩ | trapped
  · obtain ⟨front, behind, split⟩ := Cursor.Session.exists_isBehind started requests
    exact .inl ⟨s, front.length, run, further.indexes behind split o⟩
  · exact .inr ⟨Session.askAll_of_isTrapped trapped, trapped⟩

/-- The first request meets the sign that begins no token; the others go on behind it. -/
theorem askAll_behind_error :
    FitsMemory "f ? --c" ∧
    ∃ c, ofSource Options.full.toDialect "f ? --c" = some (.ok c) ∧
      ∃ s calls,
        (Session.begin c).askAll .wrapped [.advance, .takeComments, .lookahead 3, .advance] =
          some s ∧
        s.Indexes .wrapped Options.full.toDialect "f ? --c" calls := by
  have fits : FitsMemory "f ? --c" := by decide
  obtain ⟨d, started⟩ : ∃ d, Cursor.ofSource Options.full.toDialect "f ? --c" = .ok d := ⟨_, rfl⟩
  obtain ⟨c, opened, -⟩ := ofSource_of_ok fits started
  refine ⟨fits, c, opened, ?_⟩
  rcases askAll_indexes_calls .wrapped fits opened
    [.advance, .takeComments, .lookahead 3, .advance] with indexed | ⟨-, trapped⟩
  · exact indexed
  · obtain ⟨_, _, _, _, -, -, wrapped, -⟩ := trapped
    contradiction

end TokenCursor
end LuaFrontend
