import LuaFrontend.Proofs.CursorSession
import LuaFrontend.Proofs.LexerCalls
import LuaFrontend.Token.TokenCursor

set_option autoImplicit false

namespace LuaFrontend

section Streams

/-- The calls of a tokenizer up to the end token give these outcomes. -/
inductive Tokenizer.Gives : Tokenizer → List Outcome → Prop
  | last {t : Tokenizer} (h : t.isDone) : Gives t [.ok t.endToken]
  | more {t : Tokenizer} {others : List Outcome} (h : t.isDone = false)
    (gives : Gives t.next.2 others) : Gives t (t.next.1 :: others)

theorem Tokenizer.gives_outcomes {steps : Nat} {t : Tokenizer} (h : t.rest.length ≤ steps) :
    t.Gives (Lexed.ofTokenizer steps t).outcomes := by
  induction steps generalizing t with
  | zero =>
    have empty : t.rest = [] := List.eq_nil_of_length_eq_zero (by omega)
    exact .last (t.isDone_iff.mpr (by simp [empty]))
  | succ steps ih =>
    rw [Lexed.ofTokenizer]
    split
    · next done => exact .last done
    · next undone =>
      have more : t.isDone = false := Bool.eq_false_iff.mpr undone
      have shorter := length_rest_next more
      exact .more more (ih (by omega))

/-- The next calls of the lexer, up to the end token, give these outcomes. -/
def Lexer.Gives (l : Lexer) (pending : List Outcome) : Prop :=
  ∃ t : Tokenizer, l.Awaits t ∧ t.Gives pending

theorem Lexer.gives_ofSource (dialect : Dialect) (source : String) :
    (ofSource dialect source).Gives (Lexed.ofSource dialect source).outcomes :=
  ⟨_, awaits_ofSource dialect source, Tokenizer.gives_outcomes (Nat.le_refl _)⟩

theorem Lexer.Gives.call {l : Lexer} {o : Outcome} {more : List Outcome} (h : l.Gives (o :: more)) :
    ∃ m : Lexer, Lexer.call l = some (o.record, m) ∧
      ((∃ t, o = .ok t ∧ t.isEnd ∧ more = []) ∨
        (∀ t, o = .ok t → t.isEnd = false) ∧ m.Gives more ∧ m.remaining < l.remaining) := by
  obtain ⟨t, awaits, gives⟩ := h
  obtain ⟨n, follows, started, near, run⟩ := awaits.call
  refine ⟨n.behind t, ?_⟩
  cases gives with
  | last done =>
    rw [Tokenizer.next_of_isDone done] at run
    exact ⟨run, .inl ⟨t.endToken, rfl, rfl, rfl⟩⟩
  | more undone others =>
    have less := Nat.lt_of_lt_of_le (follows.remaining_behind_lt undone) near
    refine ⟨run, .inr ⟨fun token result => Tokenizer.isEnd_of_next undone result, ?_, less⟩⟩
    exact ⟨t.next.2, follows.behind.awaits started, others⟩

theorem Lexer.not_gives_nil (l : Lexer) : ¬ l.Gives [] := by
  rintro ⟨t, -, gives⟩
  cases gives

end Streams

namespace TokenCursor

open Machine
open LuaFrontend.Cursor (readFrom)

variable {m n : TokenCursor} {c d : Cursor} {l : Lexer}

section Rounds

variable {token : TokenRecord} {e : ErrorRecord}

theorem tokenize_eq {result : Except ErrorRecord TokenRecord}
    (run : Lexer.call m.lexer = some (result, l)) :
    tokenize m = some (result, { m with lexer := l }) := by
  rw [tokenize, run]
  rfl

theorem pull_comment (run : Lexer.call m.lexer = some (.ok token, l))
    (comment : token.kind = .comment) (less : l.remaining < m.lexer.remaining) :
    pull m = pull { m with lexer := l, comments := m.comments.push token } := by
  refine loop_next ?_ less
  rw [pullRound, bind_ok (tokenize_eq run), if_pos (beq_iff_eq.mpr comment)]
  rfl

theorem pull_token (run : Lexer.call m.lexer = some (.ok token, l))
    (other : token.kind ≠ .comment) :
    pull m = some (.ok (), { m with
      lexer := l, isEndReached := token.kind == .endOfInput, tokens := m.tokens.push token }) := by
  apply loop_done
  rw [pullRound, bind_ok (tokenize_eq run), if_neg (mt beq_iff_eq.mp other)]
  rfl

theorem pull_error (run : Lexer.call m.lexer = some (.error e, l)) :
    pull m = some (.error e, { m with lexer := l }) := by
  apply loop_error
  rw [pullRound, bind_error (tokenize_eq run)]

/-- A round that goes on keeps no token, and one that ends the loop keeps one. -/
theorem size_of_pullRound {next? : Option Unit} (run : pullRound m = some (.ok next?, n)) :
    n.tokens.size = m.tokens.size + next?.toList.length := by
  rw [pullRound] at run
  cases called : Lexer.call m.lexer with
  | none =>
    have stuck : tokenize m = none := by
      rw [tokenize, called]
      rfl
    change (tokenize m).bind _ = _ at run
    rw [stuck] at run
    cases run
  | some given =>
    obtain ⟨result, l⟩ := given
    cases result with
    | error e =>
      rw [bind_error (tokenize_eq called)] at run
      cases run
    | ok token =>
      rw [bind_ok (tokenize_eq called), run_ite] at run
      split at run
      · cases run
        rfl
      · cases run
        exact Array.size_push _

theorem size_of_pull (run : pull m = some (.ok (), n)) : n.tokens.size = m.tokens.size + 1 := by
  obtain ⟨r, same, last⟩ := exists_last_round (P := fun r => r.tokens.size = m.tokens.size) run rfl
    fun s t kept goOn => (size_of_pullRound goOn).trans kept
  rw [size_of_pullRound last, same]
  rfl

theorem materialize_of_not_reached (h : m.isEndReached = false) : materialize m = pull m := by
  rw [materialize, run_get, h]
  rfl

theorem materialize_of_reached (h : m.isEndReached) : materialize m = some (.ok (), m) := by
  rw [materialize, run_get, h]
  rfl

/-- The loop ends where there are enough tokens, or all. -/
theorem fill_enough {number : Nat} (h : number < m.tokens.size ∨ m.isEndReached) :
    fill number m = some (.ok (), m) := by
  apply loop_done
  rw [fillRound, run_get, if_neg]
  · rfl
  · simp only [Bool.and_eq_true, decide_eq_true_eq, Bool.not_eq_eq_eq_not, Bool.not_true, not_and]
    rcases h with enough | reached
    · omega
    · simp [reached]

theorem fillRound_few {number : Nat} (few : m.tokens.size ≤ number)
    (more : m.isEndReached = false) :
    fillRound number m = (do
      pull
      return none : Action (Option Unit)) m := by
  rw [fillRound, run_get, if_pos (by simp [few, more])]
  change (materialize m).bind _ = (pull m).bind _
  rw [materialize_of_not_reached more]

theorem fill_few {number : Nat} (few : m.tokens.size ≤ number) (more : m.isEndReached = false)
    (run : pull m = some (.ok (), n)) : fill number m = fill number n := by
  have longer := size_of_pull run
  refine loop_next ?_ (by omega)
  rw [fillRound_few few more, bind_ok run, run_pure]

theorem fill_error {number : Nat} (few : m.tokens.size ≤ number) (more : m.isEndReached = false)
    (run : pull m = some (.error e, n)) : fill number m = some (.error e, n) := by
  apply loop_error
  rw [fillRound_few few more, bind_error run]

end Rounds

/-- The tokens of the vector are those that the other cursor has read, and as much is ahead. -/
structure Mirrors (m : TokenCursor) (c : Cursor) : Prop where
  tokens : m.tokens.toList = c.buffer.map Token.record
  comments : m.comments.toList = c.comments.map Token.record
  index : m.index = c.index
  isEndReached : m.isEndReached = c.isEndRead
  ahead : m.isEndReached = false → m.lexer.Gives c.pending
  ended : m.isEndReached → c.pending = []
  /-- The numbers of all tokens are sizes, and one is left. -/
  room : c.buffered + c.pending.length < sizeCount

namespace Mirrors

variable {t : Token} {e : LexError} {more pending : List Outcome}

theorem size (h : m.Mirrors c) : m.tokens.size = c.buffered := by
  rw [← Array.length_toList, h.tokens, List.length_map, Cursor.length_buffer]

/-- What is shown of the one is kept in the other. -/
theorem getElem? (h : m.Mirrors c) {number : Nat} (shown : c.buffer[number]? = some t) :
    m.tokens[number]? = some t.record := by
  rw [← Array.getElem?_toList, h.tokens, List.getElem?_map, shown]
  rfl

theorem keep_comment (h : m.Mirrors { c with pending := .ok t :: more }) (gives : l.Gives more)
    (comment : t.isComment) (few : m.isEndReached = false) :
    Mirrors { m with lexer := l, comments := m.comments.push t.record }
      { c.keep t with pending := more } := by
  have kept : c.keep t = { c.record (.token t) with aside := t :: c.aside } := if_pos comment
  rw [kept]
  refine ⟨h.tokens, ?_, h.index, h.isEndReached, fun _ => gives, fun reached => ?_, ?_⟩
  · rw [Array.toList_push, h.comments, Cursor.comments, Cursor.comments, List.reverse_cons,
      List.map_append]
    rfl
  · rw [few] at reached
    contradiction
  · have room : c.buffered + (more.length + 1) < sizeCount := h.room
    change c.buffered + more.length < sizeCount
    omega

theorem keep_token (h : m.Mirrors { c with pending := .ok t :: more })
    (gives : t.isEnd ∧ more = [] ∨ t.isEnd = false ∧ l.Gives more) (other : t.isComment = false) :
    Mirrors { m with
      lexer := l, isEndReached := t.record.kind == .endOfInput, tokens := m.tokens.push t.record }
      { c.keep t with pending := more } := by
  have kept : c.keep t = { c.record (.token t) with ready := c.ready ++ [t] } :=
    if_neg (Bool.eq_false_iff.mp other)
  rw [kept]
  refine ⟨?_, h.comments, h.index, ?_, fun undone => ?_, fun reached => ?_, ?_⟩
  · have tokens : m.tokens.toList = c.buffer.map Token.record := h.tokens
    have behind : c.buffer ++ [t] = c.passed.reverse ++ c.current :: (c.ready ++ [t]) := by
      rw [Cursor.buffer, List.append_assoc, List.cons_append]
    rw [Array.toList_push, tokens]
    change _ = (c.passed.reverse ++ c.current :: (c.ready ++ [t])).map Token.record
    rw [← behind, List.map_append]
    rfl
  · rw [Cursor.isEndRead, Cursor.latest, List.getLastD_concat]
    rfl
  · rcases gives with ⟨last, -⟩ | ⟨-, gives⟩
    · rw [Token.isEnd, show (t.kind == .endOfInput) = false from undone] at last
      contradiction
    · exact gives
  · rcases gives with ⟨-, rfl⟩ | ⟨more, -⟩
    · rfl
    · rw [Token.isEnd, show t.kind == .endOfInput from reached] at more
      contradiction
  · have room : c.buffered + (more.length + 1) < sizeCount := h.room
    change c.passed.length + 1 + (c.ready ++ [t]).length + more.length < sizeCount
    rw [Cursor.buffered] at room
    rw [List.length_append, List.length_singleton]
    omega

theorem skip_error (h : m.Mirrors { c with pending := .error e :: more }) (gives : l.Gives more)
    (few : m.isEndReached = false) :
    Mirrors { m with lexer := l } { c with pending := more } := by
  refine ⟨h.tokens, h.comments, h.index, h.isEndReached, fun _ => gives, fun reached => ?_, ?_⟩
  · rw [few] at reached
    contradiction
  · have room : c.buffered + (more.length + 1) < sizeCount := h.room
    change c.buffered + more.length < sizeCount
    omega

end Mirrors

/-- A run of the one cursor comes to what a run of the other does. -/
inductive Agrees {α β : Type} (f : α → β) :
    Option (Except ErrorRecord β × TokenCursor) → EStateM.Result LexError Cursor α → Prop
  | ok {a : α} {m : TokenCursor} {c : Cursor} (h : m.Mirrors c) :
    Agrees f (some (.ok (f a), m)) (.ok a c)
  | error {e : LexError} {m : TokenCursor} {c : Cursor} (h : m.Mirrors c) :
    Agrees f (some (.error e.record, m)) (.error e c)

section Loops

theorem readFrom_of_ready {wanted : Nat} (pending : List Outcome)
    (ready : wanted ≤ c.ready.length) : readFrom wanted pending c = .ok () { c with pending } := by
  cases pending with
  | nil => rfl
  | cons o more => cases o <;> exact if_pos ready

theorem readFrom_nothing (wanted : Nat) (none : c.pending = []) :
    readFrom wanted c.pending c = .ok () c := by
  rw [none]
  change EStateM.Result.ok () { c with pending := [] } = _
  rw [← none]

/-- What is read is given, whatever is pending. -/
theorem readFrom_with (wanted : Nat) (pending other : List Outcome) (c : Cursor) :
    readFrom wanted pending { c with pending := other } = readFrom wanted pending c := by
  induction pending generalizing c with
  | nil => rfl
  | cons o more ih =>
    cases o with
    | error e => rfl
    | ok t =>
      have kept :
          Cursor.keep { c with pending := other } t = { c.keep t with pending := other } := by
        unfold Cursor.keep
        split <;> rfl
      rw [readFrom, readFrom, kept, ih]

/-- Reading for more tokens than one is reading for one, and then for the others. -/
theorem readFrom_round {wanted : Nat} (pending : List Outcome) (few : c.ready.length < wanted) :
    readFrom wanted pending c =
      match readFrom (c.ready.length + 1) pending c with
      | .ok _ d => readFrom wanted d.pending d
      | .error e d => .error e d := by
  induction pending generalizing c with
  | nil => rfl
  | cons o more ih =>
    cases o with
    | error e => rw [readFrom, if_neg (by omega), readFrom, if_neg (by omega)]
    | ok t =>
      rw [readFrom, if_neg (by omega), readFrom, if_neg (by omega)]
      by_cases comment : t.isComment
      · have same : (c.keep t).ready = c.ready := by simp [Cursor.keep, comment, Cursor.record]
        rw [← same] at few ⊢
        exact ih few
      · have longer : (c.keep t).ready.length = c.ready.length + 1 := by
          simp [Cursor.keep, comment, Cursor.record]
        rw [readFrom_of_ready more longer.ge]
        exact (readFrom_with wanted more more _).symm

/-- Pulling goes on for as long as comments are met. -/
theorem pull_agrees (pending : List Outcome) (h : m.Mirrors { c with pending })
    (few : m.isEndReached = false) :
    Agrees id (pull m) (readFrom (c.ready.length + 1) pending c) := by
  induction pending generalizing m c with
  | nil => exact absurd (h.ahead few) m.lexer.not_gives_nil
  | cons o more ih =>
    obtain ⟨l, run, gives⟩ := (h.ahead few).call
    cases o with
    | error e =>
      rcases gives with ⟨t, result, -⟩ | ⟨-, gives, -⟩
      · cases result
      rw [pull_error run, readFrom, if_neg (by omega)]
      exact .error (h.skip_error gives few)
    | ok t =>
      rw [readFrom, if_neg (by omega)]
      by_cases comment : t.isComment
      · have same : (c.keep t).ready = c.ready := by simp [Cursor.keep, comment, Cursor.record]
        obtain ⟨gives, less⟩ : l.Gives more ∧ l.remaining < m.lexer.remaining := by
          rcases gives with ⟨u, result, last, -⟩ | ⟨-, gives⟩
          · cases result
            rw [Token.isComment_of_isEnd last] at comment
            contradiction
          · exact gives
        rw [pull_comment run (beq_iff_eq.mp comment) less, ← same]
        exact ih (h.keep_comment gives comment few) few
      · have longer : (c.keep t).ready.length = c.ready.length + 1 := by
          simp [Cursor.keep, comment, Cursor.record]
        have other : t.kind ≠ .comment := by simpa [Token.isComment] using comment
        rw [pull_token run other, readFrom_of_ready more longer.ge]
        refine .ok (a := ()) (h.keep_token ?_ (Bool.eq_false_iff.mpr comment))
        rcases gives with ⟨u, result, last, none⟩ | ⟨more, gives⟩
        · cases result
          exact .inl ⟨last, none⟩
        · exact .inr ⟨more t rfl, gives.1⟩

theorem Mirrors.isEndReached_of_nil (h : m.Mirrors c) (none : c.pending = []) :
    m.isEndReached := by
  by_contra few
  have gives := h.ahead (Bool.eq_false_iff.mpr few)
  rw [none] at gives
  exact m.lexer.not_gives_nil gives

/-- Filling is reading for what is missing. The induction is on how many tokens are. -/
theorem fill_agrees (h : m.Mirrors c) {number : Nat} (ahead : c.index ≤ number) :
    Agrees id (fill number m) (readFrom (number - c.index) c.pending c) := by
  induction left : number - c.index - c.ready.length using Nat.strong_induction_on
    generalizing m c with
  | _ left ih =>
    have size : m.tokens.size = c.index + 1 + c.ready.length := h.size
    by_cases enough : number - c.index ≤ c.ready.length
    · rw [fill_enough (.inl (by omega)), readFrom_of_ready _ enough]
      exact .ok (a := ()) h
    by_cases none : c.pending = []
    · rw [fill_enough (.inr (h.isEndReached_of_nil none)), readFrom_nothing _ none]
      exact .ok (a := ()) h
    have few : m.isEndReached = false := by
      by_contra reached
      exact none (h.ended (Bool.eq_true_of_not_eq_false reached))
    have pulled := pull_agrees c.pending h few
    rw [readFrom_round _ (by omega)]
    generalize first : pull m = x at pulled
    generalize run : readFrom (c.ready.length + 1) c.pending c = y at pulled
    cases pulled with
    | error further =>
      rw [fill_error (by omega) few first]
      exact .error further
    | @ok _ n d further =>
      obtain ⟨_, fills⟩ := Cursor.fills_of_readFrom run
      have index : d.index = c.index := fills.index
      rw [fill_few (by omega) few first]
      rcases fills.enough with longer | nothing
      · have longer : c.index + (c.ready.length + 1) < d.index + 1 + d.ready.length := longer
        rw [← index] at enough ⊢
        exact ih _ (by omega) further (by omega) rfl
      · change Agrees id (fill number n) (readFrom (number - c.index) d.pending d)
        rw [fill_enough (.inr (further.isEndReached_of_nil nothing)), readFrom_nothing _ nothing]
        exact .ok (a := ()) further

end Loops

section Actions

variable {α β γ δ : Type} {f : α → β} {g : γ → δ}

theorem Agrees.bind {x : Action β} {y : Cursor.Action α} {k : β → Action δ}
    {j : α → Cursor.Action γ} (h : Agrees f (x m) (y c))
    (next : ∀ (a : α) (n : TokenCursor) (d : Cursor), n.Mirrors d → Agrees g (k (f a) n) (j a d)) :
    Agrees g ((x >>= k) m) ((y >>= j) c) := by
  generalize first : x m = r at h
  generalize run : y c = z at h
  cases h with
  | @ok a n d further =>
    rw [bind_ok first, show (y >>= j) c = j a d by simp [Bind.bind, EStateM.bind, run]]
    exact next a n d further
  | @error e n d further =>
    rw [bind_error first,
      show (y >>= j) c = .error e d by simp [Bind.bind, EStateM.bind, run]]
    exact .error further

/-- What is given is made from what was found. -/
theorem Agrees.map {x : Action β} {y : Cursor.Action α} {k : β → δ} {j : α → γ}
    (h : Agrees f (x m) (y c)) (same : ∀ a, k (f a) = g (j a)) :
    Agrees g ((do return k (← x)) m) ((do return j (← y)) c) :=
  h.bind fun a _ _ further => same a ▸ .ok further

theorem current_eq (h : m.Mirrors c) : current m = some (.ok c.current.record, m) := by
  have shown := h.getElem? c.getElem?_buffer_index
  rw [current, run_get, h.index, shown]
  rfl

theorem current_agrees (h : m.Mirrors c) :
    Agrees Token.record (current m) ((do return (← get).current : Cursor.Action Token) c) := by
  rw [current_eq h]
  exact .ok h

theorem fill_agrees_tokenAt (h : m.Mirrors c) (number : Nat) :
    Agrees (fun _ => ()) (fill number m) (Cursor.tokenAt number c) := by
  rw [Cursor.tokenAt, LuaFrontend.Parser.get_bind]
  split
  · next before =>
    have size := h.size
    have inside := c.index_lt_buffered
    rw [fill_enough (.inl (by omega))]
    exact .ok h
  · next behind =>
    have filled : Agrees id (fill number m) (Cursor.read (number - c.index) c) :=
      fill_agrees h (Nat.le_of_not_lt behind)
    have read := filled.bind (k := pure) (j := fun _ => do
      return (← get).peek (number - c.index)) (g := fun _ => ()) fun _ _ _ further => .ok further
    rwa [bind_pure] at read

/-- The token that is shown is in the vector. -/
theorem tokenAt_agrees (h : m.Mirrors c) (number : Nat) :
    Agrees Token.record (tokenAt number m) (Cursor.tokenAt number c) := by
  have filled := fill_agrees_tokenAt h number
  rw [tokenAt]
  generalize first : fill number m = x at filled
  generalize run : Cursor.tokenAt number c = y at filled
  cases filled with
  | error further =>
    rw [bind_error first]
    exact .error further
  | @ok t n d further =>
    have shown := further.getElem? (Cursor.tokenAt_ok run).1
    have size := further.size
    have inside := d.index_lt_buffered
    rw [bind_ok first, run_get, sub?_of_le (by omega), run_need, size, shown]
    exact .ok further

variable (o : Overflow)

theorem add_index (h : m.Mirrors c) : o.add m.index 1 = some (c.index + 1) := by
  have room := h.room
  have inside := c.index_lt_buffered
  rw [h.index]
  exact Overflow.add_of_lt (by omega)

theorem lookahead_agrees (h : m.Mirrors c) {distance : Nat}
    (sum : o.add m.index distance = some ((m.index + distance) % sizeCount)) :
    Agrees Token.record (lookahead o distance m) (Cursor.lookahead distance c) := by
  rw [lookahead, run_get, sum, run_need, h.index]
  exact tokenAt_agrees h _

/-- A distance that leads out of the sizes is trapped, or leads to a token in front. -/
theorem lookahead_trapped {distance : Nat} (high : sizeCount ≤ m.index + distance) :
    lookahead .trapped distance m = none := by
  rw [lookahead, run_get, Overflow.trapped_add high]
  rfl

theorem next_agrees (h : m.Mirrors c) :
    Agrees Token.record (next o m) (Cursor.next c) := by
  have shown := tokenAt_agrees h (c.index + 1)
  rw [Cursor.tokenAt, LuaFrontend.Parser.get_bind, if_neg (by omega), Nat.add_sub_cancel_left]
    at shown
  rw [next, lookahead, run_get, add_index o h, run_need]
  exact shown

/-- The index is moved if there is a token behind. -/
theorem step_agrees (h : m.Mirrors c) {following : Nat} (behind : following = c.index + 1) :
    Agrees id ((do
      if following < (← get).tokens.size then modify fun m => { m with index := following } :
        Action Unit) m) (.ok () c.step) := by
  subst behind
  have size : m.tokens.size = c.index + 1 + c.ready.length := h.size
  rw [run_get]
  cases ready : c.ready with
  | nil =>
    have stays : c.step = c := by rw [Cursor.step, ready]
    rw [ready, List.length_nil] at size
    rw [if_neg (by omega), stays]
    exact .ok (a := ()) h
  | cons t more =>
    have moves : c.step =
        { c with passed := c.current :: c.passed, current := t, ready := more } := by
      rw [Cursor.step, ready]
    have latest : c.step.isEndRead = c.isEndRead := by
      rw [moves, Cursor.isEndRead, Cursor.isEndRead, Cursor.latest, Cursor.latest, ready,
        List.getLastD_cons]
    rw [ready, List.length_cons] at size
    rw [if_pos (by omega)]
    refine .ok (a := ()) ⟨?_, ?_, ?_, ?_, ?_, ?_, ?_⟩
    · rw [Cursor.buffer_step]
      exact h.tokens
    · rw [moves]
      exact h.comments
    · rw [moves]
      rfl
    · rw [latest]
      exact h.isEndReached
    · rw [moves]
      exact h.ahead
    · rw [moves]
      exact h.ended
    · rw [Cursor.buffered_step, moves]
      exact h.room

/-- Where a token is missing, one is pulled. -/
theorem materialize_agrees (h : m.Mirrors c) (none : c.ready = []) :
    Agrees id (materialize m) (Cursor.read 1 c) := by
  rw [Cursor.read]
  cases reached : m.isEndReached with
  | false =>
    have pulled := pull_agrees c.pending h reached
    rw [none, List.length_nil] at pulled
    rw [materialize_of_not_reached reached]
    exact pulled
  | true =>
    rw [materialize_of_reached reached, readFrom_nothing 1 (h.ended reached)]
    exact .ok (a := ()) h

theorem advance_agrees (h : m.Mirrors c) : Agrees id (advance o m) (Cursor.advance c) := by
  have size : m.tokens.size = c.index + 1 + c.ready.length := h.size
  rw [advance, run_get, add_index o h, run_need, run_get, run_ite]
  cases ready : c.ready with
  | nil =>
    rw [ready, List.length_nil] at size
    have read := materialize_agrees h ready
    rw [if_pos (by omega)]
    generalize first : materialize m = x at read
    generalize run : Cursor.read 1 c = y at read
    have whole : Cursor.advance c = (Cursor.read 1 >>= fun _ => modify Cursor.step) c := rfl
    rw [whole]
    cases read with
    | @error e n d further =>
      rw [bind_error first, Cursor.bind_error.mpr (.inl run)]
      exact .error further
    | @ok u n d further =>
      obtain ⟨_, fills⟩ := Cursor.fills_of_readFrom run
      have index : d.index = c.index := fills.index
      rw [bind_ok first, show (Cursor.read 1 >>= fun _ => modify Cursor.step) c = .ok () d.step by
        simp only [Bind.bind, EStateM.bind, run]; rfl]
      exact step_agrees further (by rw [index])
  | cons t more =>
    rw [ready, List.length_cons] at size
    have enough : 1 ≤ c.ready.length := by rw [ready, List.length_cons]; omega
    have moved : Cursor.advance c = .ok () c.step := by
      change (Cursor.read 1 >>= fun _ => modify Cursor.step) c = _
      simp only [Bind.bind, EStateM.bind, Cursor.read, readFrom_of_ready c.pending enough]
      rfl
    rw [if_neg (by omega), moved]
    exact step_agrees h rfl

theorem acceptsRecord_record (pattern : Pattern) (t : Token) :
    pattern.acceptsRecord t.record = pattern.accepts t := by
  cases pattern <;> rfl

theorem any_acceptsRecord (patterns : List Pattern) (t : Token) :
    patterns.any (·.acceptsRecord t.record) = patterns.any (·.accepts t) := by
  simp only [acceptsRecord_record]

theorem matchesAny_agrees (h : m.Mirrors c) (patterns : List Pattern) :
    Agrees id (matchesAny patterns m)
      ((do return (← get).matchesAny patterns : Cursor.Action Bool) c) :=
  (current_agrees h).map (j := fun t => patterns.any (·.accepts t)) (any_acceptsRecord patterns)

theorem nextMatchesAny_agrees (h : m.Mirrors c) (patterns : List Pattern) :
    Agrees id (nextMatchesAny o patterns m) (Cursor.nextMatchesAny patterns c) :=
  (next_agrees o h).map (any_acceptsRecord patterns)

theorem consume_agrees (h : m.Mirrors c) (pattern : Pattern) :
    Agrees id (consume o pattern m) (Cursor.consume pattern c) := by
  refine (current_agrees h).bind (j := fun t => do
    if pattern.accepts t then
      Cursor.advance
      return true
    else return false) fun t n d further => ?_
  rw [acceptsRecord_record]
  split
  · exact (advance_agrees o further).bind fun _ _ _ behind => .ok (a := true) behind
  · exact .ok (a := false) further

theorem consumeNext_agrees (h : m.Mirrors c) (pattern : Pattern) :
    Agrees id (consumeNext o pattern m) (Cursor.consumeNext pattern c) := by
  refine (next_agrees o h).bind fun t n d further => ?_
  rw [acceptsRecord_record]
  split
  · refine (advance_agrees o further).bind fun _ _ _ behind => ?_
    exact (advance_agrees o behind).bind fun _ _ _ last => .ok (a := true) last
  · exact .ok (a := false) further

/-- Words are spelled by the language. -/
theorem endsBlock_record {t : Token} (word : t.kind = .keyword) :
    (["else", "elseif", "end", "until"].map Pattern.text).any (·.acceptsRecord t.record) =
      t.endsBlock := by
  have spelled (s : String) : (Pattern.text s).acceptsRecord t.record = (t.text == s) := by
    rw [acceptsRecord_record, Pattern.accepts, word]
    rfl
  rw [Token.endsBlock, Token.isKeyword, word]
  simp [spelled, Bool.beq_eq_decide_eq]

theorem endsBlock_agrees (h : m.Mirrors c) :
    Agrees id (endsBlock m) ((do return (← get).current.endsBlock : Cursor.Action Bool) c) := by
  rw [endsBlock, bind_ok (current_eq h), run_ite]
  split
  · next word =>
    have accepted := endsBlock_record (t := c.current) (beq_iff_eq.mp word)
    rw [matchesAny, bind_ok (current_eq h), accepted]
    exact .ok (a := c.current.endsBlock) h
  · next other =>
    have plain : c.current.isKeyword = false := Bool.eq_false_iff.mpr other
    have refused : c.current.endsBlock = false := by rw [Token.endsBlock, plain, Bool.false_and]
    change Agrees id _ (.ok c.current.endsBlock c)
    rw [refused]
    exact .ok (a := false) h

theorem takeComments_agrees (h : m.Mirrors c) :
    Agrees (List.map Token.record) (takeComments m) (Cursor.takeComments c) := by
  rw [takeComments, run_get, h.comments]
  exact .ok (a := c.comments)
    ⟨h.tokens, rfl, h.index, h.isEndReached, h.ahead, h.ended, h.room⟩

end Actions

section Opening

open LuaFrontend.Cursor (opening)

variable {dialect : Dialect} {source : String} {final : Token} {aside : List Token}
  {items : List Outcome} {l : Lexer}

/-- Nothing has been kept yet, apart from comments. -/
def fresh (l : Lexer) (aside : List Token) : TokenCursor :=
  { lexer := l, comments := (aside.reverse.map Token.record).toArray }

theorem mirrors_first {t : Token} {more : List Outcome} {journal : List Event}
    (gives : t.isEnd ∧ more = [] ∨ t.isEnd = false ∧ l.Gives more)
    (room : more.length + 1 < sizeCount) :
    Mirrors { fresh l aside with
      isEndReached := t.record.kind == .endOfInput, tokens := #[t.record] }
      ⟨dialect, [], t, [], more, aside, journal, 0⟩ := by
  refine ⟨rfl, ?_, rfl, rfl, fun undone => ?_, fun reached => ?_, ?_⟩
  · rfl
  · rcases gives with ⟨last, -⟩ | ⟨-, gives⟩
    · rw [Token.isEnd, show (t.kind == .endOfInput) = false from undone] at last
      contradiction
    · exact gives
  · rcases gives with ⟨-, none⟩ | ⟨more, -⟩
    · exact none
    · rw [Token.isEnd, show t.kind == .endOfInput from reached] at more
      contradiction
  · change 0 + 1 + 0 + more.length < sizeCount
    omega

/-- What comes of a cursor that is to be opened. -/
inductive Opens :
    Option (Except ErrorRecord Unit × TokenCursor) → Except Cursor.Refusal Cursor → Prop
  | ok {m : TokenCursor} {c : Cursor} (h : m.Mirrors c) : Opens (some (.ok (), m)) (.ok c)
  | error (m : TokenCursor) (r : Cursor.Refusal) :
    Opens (some (.error r.error.record, m)) (.error r)

/-- The first token is looked for behind comments. -/
theorem opens_pull (gives : l.Gives (items ++ [.ok final])) (last : final.isEnd)
    (room : items.length + 2 < sizeCount) :
    Opens (pull (fresh l aside)) (opening dialect final aside items) := by
  induction items generalizing l aside with
  | nil =>
    obtain ⟨n, run, -⟩ := gives.call
    have other : final.kind ≠ .comment :=
      beq_eq_false_iff_ne.mp (Token.isComment_of_isEnd last)
    rw [pull_token run other]
    exact .ok (mirrors_first (.inl ⟨last, rfl⟩) (by omega))
  | cons o items ih =>
    obtain ⟨n, run, more⟩ := gives.call
    cases o with
    | error e =>
      rw [pull_error run]
      exact .error _ ⟨e, aside.map .token⟩
    | ok t =>
      obtain ⟨inner, less⟩ : (t.isEnd = false ∧ n.Gives (items ++ [.ok final])) ∧
          n.remaining < l.remaining := by
        rcases more with ⟨_, -, -, none⟩ | ⟨more, gives, less⟩
        · simp at none
        · exact ⟨⟨more t rfl, gives⟩, less⟩
      rw [List.length_cons] at room
      by_cases comment : t.isComment
      · have kept : { fresh l aside with
            lexer := n, comments := (fresh l aside).comments.push t.record } =
              fresh n (t :: aside) := by
          simp [fresh]
        rw [pull_comment (m := fresh l aside) run (beq_iff_eq.mp comment) less, kept, opening,
          if_pos comment]
        exact ih inner.2 (by omega)
      · have other : t.kind ≠ .comment := mt beq_iff_eq.mpr comment
        rw [pull_token run other, opening, if_neg comment]
        exact .ok (mirrors_first (.inr inner) (by simp; omega))

/-- Both cursors come to the first token of a text, or to the same error. -/
theorem opens_ofSource (dialect : Dialect) {source : String} (fits : FitsMemory source) :
    Opens (materialize { lexer := .ofSource dialect source }) (Cursor.ofSource dialect source) := by
  have few := Lexed.length_items_le dialect source
  rw [materialize_of_not_reached rfl]
  change Opens (pull (fresh (.ofSource dialect source) [])) _
  apply opens_pull
  · exact Lexer.gives_ofSource dialect source
  · exact Lexed.isEnd_final dialect source
  · rw [FitsMemory] at fits
    rw [sizeCount] at fits ⊢
    omega

theorem ofSource_ok {c : TokenCursor} (fits : FitsMemory source)
    (opened : ofSource dialect source = some (.ok c)) :
    ∃ d, Cursor.ofSource dialect source = .ok d ∧ c.Mirrors d := by
  have opens := opens_ofSource dialect fits
  rw [ofSource, ofLexer] at opened
  generalize materialize { lexer := .ofSource dialect source } = x at opens opened
  generalize Cursor.ofSource dialect source = y at opens
  cases opens with
  | @ok m d mirrors =>
    cases opened
    exact ⟨d, rfl, mirrors⟩
  | error m r => cases opened

theorem ofSource_of_ok {d : Cursor} (fits : FitsMemory source)
    (opened : Cursor.ofSource dialect source = .ok d) :
    ∃ c, ofSource dialect source = some (.ok c) ∧ c.Mirrors d := by
  have opens := opens_ofSource dialect fits
  rw [opened] at opens
  rw [ofSource, ofLexer]
  generalize materialize { lexer := .ofSource dialect source } = x at opens
  cases opens with
  | @ok m _ mirrors => exact ⟨m, rfl, mirrors⟩

end Opening

end TokenCursor
end LuaFrontend
