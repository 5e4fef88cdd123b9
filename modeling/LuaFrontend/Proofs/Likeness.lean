import LuaFrontend.Proofs.ParserRuns
import LuaFrontend.Proofs.SpanMap

set_option autoImplicit false

/-
Two parsers side by side, each over its own text. Where the tokens before the cursors match one by
one, the same tokens are taken, trees come out that differ in their places only, and errors that
differ in theirs. The second text may go on with a semicolon where the first one ends.
-/

namespace LuaFrontend

open Outcome (IsInput)

/-- The pattern accepts the end token or a semicolon. -/
def Pattern.isStop : Pattern → Bool
  | .kind k => k == .endOfInput || k == .symbol
  | .text s => s == ";"

/-- When tokens and faulty lexemes of two texts match. Matching tokens differ in their places only,
which the two maps make one. A pardoned error of the first text ends the comparison. -/
structure Likeness where
  token : Token → Token → Prop
  fault : LexError → LexError → Prop
  left : Span → Span
  right : Span → Span
  pardoned : Error → Prop
  /-- The first text ends here, and the second has a semicolon. -/
  stop : Token → Token → Prop
  /-- What the second text has behind that semicolon. -/
  beyond : List Outcome → Prop
  kind : ∀ {t u}, token t u → u.kind = t.kind
  text : ∀ {t u}, token t u → u.text = t.text
  span : ∀ {t u}, token t u → left t.span = right u.span
  isEnd_of_stop : ∀ {t u}, stop t u → t.isEnd
  kind_of_stop : ∀ {t u}, stop t u → u.kind = .symbol
  text_of_stop : ∀ {t u}, stop t u → u.text = ";"
  /-- A text that ends too early says nothing of the other one. -/
  pardoned_of_stop : ∀ {t u}, stop t u → ∀ e, pardoned e

namespace Likeness

/-- Two texts that end together. -/
def ofWhole (token : Token → Token → Prop) (fault : LexError → LexError → Prop)
    (left right : Span → Span) (pardoned : Error → Prop)
    (kind : ∀ {t u}, token t u → u.kind = t.kind) (text : ∀ {t u}, token t u → u.text = t.text)
    (span : ∀ {t u}, token t u → left t.span = right u.span) : Likeness where
  token := token
  fault := fault
  left := left
  right := right
  pardoned := pardoned
  stop _ _ := False
  beyond _ := False
  kind := kind
  text := text
  span := span
  isEnd_of_stop := False.elim
  kind_of_stop := False.elim
  text_of_stop := False.elim
  pardoned_of_stop := False.elim

variable (L : Likeness)

inductive Outcomes : Outcome → Outcome → Prop
  | token {t u : Token} : L.token t u → Outcomes (.ok t) (.ok u)
  | error {e f : LexError} : L.fault e f → Outcomes (.error e) (.error f)

/-- Outcomes that match one by one, as far as the first text goes. -/
inductive Matches : List Outcome → List Outcome → Prop
  | nil : Matches [] []
  | cons {o p : Outcome} {rest more : List Outcome} :
    L.Outcomes o p → Matches rest more → Matches (o :: rest) (p :: more)
  | stop {t u : Token} {more : List Outcome} : L.stop t u → L.beyond more →
    Matches [.ok t] (.ok u :: more)

/-- What the two cursors stand at. -/
def Sees (t u : Token) : Prop := L.token t u ∨ L.stop t u

/-- Jumps are read alike, or only the second dialect has them; then errors of the first text do not
count, and faulty lexemes do not match. -/
def SameJumps (first second : Dialect) : Prop :=
  second.labels = first.labels ∨
    first.labels = false ∧ (∀ e, L.pardoned e) ∧ ∀ e f, ¬ L.fault e f

/-- What is before two cursors matches. -/
structure Cursors (c d : Cursor) : Prop where
  upcoming : L.Matches c.upcoming d.upcoming
  dialect : L.SameJumps c.dialect d.dialect
  input : IsInput c.upcoming
  other : IsInput d.upcoming

/-- Errors with the same cause at matching places. -/
inductive Errors : Error → Error → Prop
  | lexical {e f : LexError} : L.fault e f → Errors (.lexical e) (.lexical f)
  | grammatical {t u : Token} (fault : SyntaxFault) (near : String) : L.token t u →
    Errors (.grammatical ⟨fault, t.start, near⟩) (.grammatical ⟨fault, u.start, near⟩)

def Results {α β : Type} (r : α → β → Prop) :
    EStateM.Result Error Cursor α → EStateM.Result Error Cursor β → Prop
  | .ok a c, .ok b d => r a b ∧ L.Cursors c d
  | .error e _, .error f _ => L.pardoned e ∨ L.Errors e f
  | .error e _, .ok _ _ => L.pardoned e
  | .ok _ _, .error _ _ => False

/-- From matching cursors at such tokens the two parsers come to matching results. -/
def RunsFrom {α β : Type} (start : Token → Token → Prop) (p : Parser α) (q : Parser β)
    (r : α → β → Prop) : Prop :=
  ∀ ⦃c d⦄, L.Cursors c d → start c.current d.current → L.Results r (p c) (q d)

/-- From matching cursors the two parsers come to matching results. -/
abbrev Runs {α β : Type} (p : Parser α) (q : Parser β) (r : α → β → Prop) : Prop :=
  L.RunsFrom L.Sees p q r

/-- These tokens and no others. -/
def At (t u a b : Token) : Prop := a = t ∧ b = u

/-- The same up to the places in it. -/
def Same {α : Type} (map : (Span → Span) → α → α) (a b : α) : Prop := map L.left a = map L.right b

variable {L} {α β γ δ : Type}

theorem Matches.of_forall₂ {first second : List Outcome}
    (h : List.Forall₂ L.Outcomes first second) : L.Matches first second := by
  induction h with
  | nil => exact .nil
  | cons same _ ih => exact .cons same ih

theorem Cursors.sees {c d : Cursor} (h : L.Cursors c d) : L.Sees c.current d.current := by
  have both := h.upcoming
  unfold Cursor.upcoming at both
  generalize c.ready.map Except.ok ++ c.pending.filter Outcome.isSignificant = rest at both
  generalize d.ready.map Except.ok ++ d.pending.filter Outcome.isSignificant = more at both
  cases both with
  | cons first _ =>
    cases first with
    | token same => exact .inl same
  | stop same _ => exact .inr same

theorem Cursors.record {c d : Cursor} (h : L.Cursors c d) (e f : Event) :
    L.Cursors (c.record e) (d.record f) :=
  ⟨h.upcoming, h.dialect, h.input, h.other⟩

theorem Cursors.of_passes {c d e f : Cursor} (h : L.Cursors c d) (g : c.Passes [] e)
    (k : d.Passes [] f) : L.Cursors e f := by
  refine ⟨?_, ?_, g.input h.input, k.input h.other⟩
  · rw [g.upcoming_eq, k.upcoming_eq]
    exact h.upcoming
  · rw [k.dialect, g.dialect]
    exact h.dialect

/-- A token and the stop differ in their kinds. -/
theorem not_stop_of_token {t u : Token} (h : L.token t u) : ¬ L.stop t u := by
  intro stop
  have ends := L.isEnd_of_stop stop
  rw [Token.isEnd, ← L.kind h, L.kind_of_stop stop] at ends
  contradiction

/-- What is behind the current tokens. -/
theorem Cursors.tail {c d : Cursor} {o p : Outcome} {rest more : List Outcome} (h : L.Cursors c d)
    (inside : L.token c.current d.current) (view : c.upcoming = o :: rest)
    (seen : d.upcoming = p :: more) : L.Matches rest more := by
  have both := h.upcoming
  have first : o = .ok c.current := (List.cons.inj view).1.symm
  have second : p = .ok d.current := (List.cons.inj seen).1.symm
  rw [view, seen, first, second] at both
  cases both with
  | cons _ others => exact others
  | stop same _ => exact absurd same (not_stop_of_token inside)

theorem Cursors.of_passes_one {c d e f : Cursor} {t u : Token} (h : L.Cursors c d)
    (inside : L.token c.current d.current) (g : c.Passes [t] e) (k : d.Passes [u] f) :
    L.Cursors e f := by
  refine ⟨h.tail inside g.upcoming k.upcoming, ?_, g.input h.input, k.input h.other⟩
  rw [k.dialect, g.dialect]
  exact h.dialect

/-- What is behind the current tokens: nothing, tokens, or faulty lexemes. -/
theorem Cursors.behind {c d : Cursor} (h : L.Cursors c d)
    (inside : L.token c.current d.current) :
    (c.upcoming = [.ok c.current] ∧ d.upcoming = [.ok d.current]) ∨
    (∃ t u rest more, c.upcoming = .ok c.current :: .ok t :: rest ∧
      d.upcoming = .ok d.current :: .ok u :: more ∧ L.Sees t u) ∨
    (∃ e f rest more, c.upcoming = .ok c.current :: .error e :: rest ∧
      d.upcoming = .ok d.current :: .error f :: more ∧ L.fault e f) := by
  have others := h.tail inside rfl rfl
  simp only [Cursor.upcoming]
  generalize c.ready.map Except.ok ++ c.pending.filter Outcome.isSignificant = rest at others ⊢
  generalize d.ready.map Except.ok ++ d.pending.filter Outcome.isSignificant = more at others ⊢
  cases others with
  | nil => exact .inl ⟨rfl, rfl⟩
  | cons first others =>
    cases first with
    | token same => exact .inr (.inl ⟨_, _, _, _, rfl, rfl, .inl same⟩)
    | error same => exact .inr (.inr ⟨_, _, _, _, rfl, rfl, same⟩)
  | stop same _ => exact .inr (.inl ⟨_, _, _, _, rfl, rfl, .inr same⟩)

section Sees

variable {t u : Token}

theorem isEnd_eq (h : L.token t u) : u.isEnd = t.isEnd := by
  simp only [Token.isEnd, L.kind h]

theorem near_eq (h : L.token t u) : u.near = t.near := by
  simp only [Token.near, isEnd_eq h, L.text h]

theorem kind_eq_end (h : L.stop t u) : t.kind = .endOfInput := by
  have ends := L.isEnd_of_stop h
  simpa [Token.isEnd] using ends

/-- The tokens match if the first is not the end token. -/
theorem Sees.token (h : L.Sees t u) (more : t.isEnd = false) : L.token t u := by
  rcases h with same | stop
  · exact same
  · rw [L.isEnd_of_stop stop] at more
    contradiction

theorem Sees.token_of_kind (h : L.Sees t u) {k : TokenKind} (kind : t.kind = k)
    (more : k ≠ .endOfInput) : L.token t u := by
  apply h.token
  simpa [Token.isEnd, kind] using more

/-- A stop is of no other kind than that of the end token or of a semicolon. -/
theorem kind_eq_iff (h : L.Sees t u) (k : TokenKind)
    (other : k ≠ .endOfInput ∧ k ≠ .symbol) : u.kind = k ↔ t.kind = k := by
  rcases h with same | stop
  · rw [L.kind same]
  · rw [kind_eq_end stop, L.kind_of_stop stop]
    exact iff_of_false other.2.symm other.1.symm

theorem isWord_eq (h : L.Sees t u) (text : String) : u.isWord text = t.isWord text := by
  rcases h with same | stop
  · simp only [Token.isWord, Token.isKeyword, L.kind same, L.text same]
  · simp only [Token.isWord, Token.isKeyword, kind_eq_end stop, L.kind_of_stop stop]
    rfl

theorem accepts_of_stop (h : L.stop t u) {pattern : Pattern} (other : pattern.isStop = false) :
    pattern.accepts t = false ∧ pattern.accepts u = false := by
  cases pattern with
  | kind k =>
    simp only [Pattern.isStop, Bool.or_eq_false_iff, beq_eq_false_iff_ne] at other
    simp only [Pattern.accepts, kind_eq_end h, L.kind_of_stop h, beq_eq_false_iff_ne]
    exact ⟨other.1.symm, other.2.symm⟩
  | text s =>
    simp only [Pattern.isStop, beq_eq_false_iff_ne] at other
    simp only [Pattern.accepts, kind_eq_end h, L.kind_of_stop h, L.text_of_stop h,
      Pattern.isFreelySpelled, Bool.not_true, Bool.false_and, Bool.not_false, Bool.true_and,
      beq_eq_false_iff_ne]
    exact ⟨trivial, other.symm⟩

theorem accepts_eq_of_token (h : L.token t u) (pattern : Pattern) :
    pattern.accepts u = pattern.accepts t := by
  cases pattern <;> simp only [Pattern.accepts, L.kind h, L.text h]

theorem accepts_eq (h : L.Sees t u) {pattern : Pattern} (other : pattern.isStop = false) :
    pattern.accepts u = pattern.accepts t := by
  rcases h with same | stop
  · exact accepts_eq_of_token same pattern
  · obtain ⟨first, second⟩ := accepts_of_stop stop other
    rw [first, second]

theorem any_accepts_eq (h : L.Sees t u) {patterns : List Pattern}
    (others : patterns.all (!·.isStop)) :
    patterns.any (·.accepts u) = patterns.any (·.accepts t) := by
  induction patterns with
  | nil => rfl
  | cons p patterns ih =>
    simp only [List.all_cons, Bool.and_eq_true, Bool.not_eq_true'] at others
    rw [List.any_cons, List.any_cons, ih others.2, accepts_eq h others.1]

end Sees

section Tells

variable (L) in
/-- At such tokens the pattern accepts both or neither, and no stop. -/
def Tells (start : Token → Token → Prop) (pattern : Pattern) : Prop :=
  ∀ ⦃t u⦄, start t u → L.Sees t u →
    pattern.accepts u = pattern.accepts t ∧ (pattern.accepts t → L.token t u)

theorem Tells.other {start : Token → Token → Prop} {pattern : Pattern}
    (other : pattern.isStop = false) : L.Tells start pattern := by
  intro t u _ sees
  refine ⟨accepts_eq sees other, fun accepted => ?_⟩
  rcases sees with same | stop
  · exact same
  · rw [(accepts_of_stop stop other).1] at accepted
    contradiction

theorem Tells.token (pattern : Pattern) : L.Tells L.token pattern :=
  fun _ _ same _ => ⟨accepts_eq_of_token same pattern, fun _ => same⟩

end Tells

section Runs

variable {start : Token → Token → Prop} {p : Parser α} {q : Parser β} {r : α → β → Prop}

theorem RunsFrom.at {t u : Token} (h : L.RunsFrom start p q r) (holds : start t u) :
    L.RunsFrom (At t u) p q r := by
  rintro c d both ⟨rfl, rfl⟩
  exact h both holds

theorem RunsFrom.mono {s : α → β → Prop} (h : L.RunsFrom start p q r)
    (sub : ∀ a b, r a b → s a b) : L.RunsFrom start p q s := by
  intro c d both holds
  have result := h both holds
  cases run : p c <;> cases other : q d <;> rw [run, other] at result
  · exact ⟨sub _ _ result.1, result.2⟩
  · exact result
  · exact result
  · exact result

theorem runs_pure {a : α} {b : β} (h : r a b) : L.RunsFrom start (pure a) (pure b) r :=
  fun _ _ both _ => ⟨h, both⟩

/-- A pardoned error says nothing of the other parser. -/
theorem results_of_error {e : Error} {c : Cursor} (h : L.pardoned e)
    (y : EStateM.Result Error Cursor β) : L.Results r (.error e c) y := by
  cases y with
  | ok b d => exact h
  | error f d => exact .inl h

theorem results_of_pardoned {x : EStateM.Result Error Cursor α} (h : ∀ e, L.pardoned e)
    (fails : ∀ a c, x ≠ .ok a c) (y : EStateM.Result Error Cursor β) : L.Results r x y := by
  cases x with
  | ok a c => exact absurd rfl (fails a c)
  | error e c => exact results_of_error (h e) y

/-- What the first parser gives, the second one gives too. -/
theorem Results.of_ok {a : α} {c : Cursor} {y : EStateM.Result Error Cursor β}
    (h : L.Results r (.ok a c) y) : ∃ b d, y = .ok b d ∧ r a b ∧ L.Cursors c d := by
  cases y with
  | ok b d => exact ⟨b, d, rfl, h.1, h.2⟩
  | error e d => exact h.elim

theorem Results.bind {f : α → Parser γ} {g : β → Parser δ} {s : γ → δ → Prop} {c d : Cursor}
    (h : L.Results r (p c) (q d))
    (next : ∀ a b e k, p c = .ok a e → q d = .ok b k → r a b → L.Cursors e k →
      L.Results s (f a e) (g b k)) :
    L.Results s ((p >>= f) c) ((q >>= g) d) := by
  simp only [Bind.bind, EStateM.bind]
  cases run : p c with
  | ok a e =>
    cases other : q d with
    | ok b k =>
      rw [run, other] at h
      exact next a b e k run other h.1 h.2
    | error f k =>
      rw [run, other] at h
      exact h.elim
  | error e k =>
    cases other : q d with
    | ok b l =>
      rw [run, other] at h
      change L.Results s (.error e k) (g b l)
      cases g b l with
      | ok _ _ => exact h
      | error _ _ => exact .inl h
    | error f l =>
      rw [run, other] at h
      exact h

theorem RunsFrom.bind {f : α → Parser γ} {g : β → Parser δ} {s : γ → δ → Prop}
    (h : L.RunsFrom start p q r) (next : ∀ a b, r a b → L.Runs (f a) (g b) s) :
    L.RunsFrom start (p >>= f) (q >>= g) s :=
  fun _ _ both holds => (h both holds).bind fun a b _ _ _ _ same further =>
    next a b same further further.sees

theorem runs_ite {condition : Prop} [Decidable condition] {p' : Parser α} {q' : Parser β}
    (yes : L.RunsFrom start p q r) (no : L.RunsFrom start p' q' r) :
    L.RunsFrom start (if condition then p else p') (if condition then q else q') r := by
  split
  · exact yes
  · exact no

theorem runs_production (production : Production) (h : L.RunsFrom start p q r) :
    L.RunsFrom start (Parser.production production p) (Parser.production production q) r := by
  intro c d both holds
  have result := h (both.record (.enter production) (.enter production)) holds
  unfold Parser.production
  cases run : p (c.record (.enter production)) <;>
    cases other : q (d.record (.enter production)) <;> rw [run, other] at result
  · exact ⟨result.1, result.2.record _ _⟩
  · exact result
  · exact result
  · exact result

theorem runs_get_bind {f : Cursor → Parser α} {g : Cursor → Parser β}
    (h : ∀ c d, L.Cursors c d → start c.current d.current →
      L.RunsFrom (At c.current d.current) (f c) (g d) r) :
    L.RunsFrom start (get >>= f) (get >>= g) r :=
  fun c d both holds => h c d both holds both ⟨rfl, rfl⟩

theorem runs_current_bind {f : Token → Parser α} {g : Token → Parser β}
    (h : ∀ t u, L.Sees t u → start t u → L.RunsFrom (At t u) (f t) (g u) r) :
    L.RunsFrom start (Parser.current >>= f) (Parser.current >>= g) r :=
  fun _ _ both holds => h _ _ both.sees holds both ⟨rfl, rfl⟩

theorem runs_failHere (fault : SyntaxFault) :
    L.RunsFrom start (Parser.failHere fault) (Parser.failHere fault) r := by
  intro c d both _
  rcases both.sees with same | stop
  · have errors := Errors.grammatical fault c.current.near same
    exact .inr (near_eq same ▸ errors)
  · exact results_of_pardoned (L.pardoned_of_stop stop) (fun _ _ => Parser.not_failHere_ok) _

theorem runs_expected (what : Expectation) :
    L.RunsFrom start (Parser.expected what) (Parser.expected what) r :=
  runs_failHere (.expected what)

theorem runs_next : L.RunsFrom L.token (liftM Cursor.next) (liftM Cursor.next) L.Sees := by
  intro c d both inside
  change L.Results L.Sees (Parser.act Cursor.next c) (Parser.act Cursor.next d)
  unfold Parser.act
  rcases both.behind inside with ⟨view, seen⟩ | ⟨t, u, rest, more, view, seen, same⟩ |
    ⟨e, f, rest, more, view, seen, same⟩
  · obtain ⟨e, run, passes⟩ := Cursor.next_of_end view
    obtain ⟨f, other, passed⟩ := Cursor.next_of_end seen
    rw [run, other]
    exact ⟨both.sees, both.of_passes passes passed⟩
  · obtain ⟨e, run, passes⟩ := Cursor.next_of_token view
    obtain ⟨f, other, passed⟩ := Cursor.next_of_token seen
    rw [run, other]
    exact ⟨same, both.of_passes passes passed⟩
  · obtain ⟨c', run⟩ := Cursor.next_of_error view
    obtain ⟨d', other⟩ := Cursor.next_of_error seen
    rw [run, other]
    exact .inr (.lexical same)

theorem runs_advance :
    L.RunsFrom L.token (liftM Cursor.advance) (liftM Cursor.advance) fun _ _ => True := by
  intro c d both inside
  change L.Results _ (Parser.act Cursor.advance c) (Parser.act Cursor.advance d)
  unfold Parser.act
  rcases both.behind inside with ⟨view, seen⟩ | ⟨t, u, rest, more, view, seen, same⟩ |
    ⟨e, f, rest, more, view, seen, same⟩
  · obtain ⟨e, run, passes⟩ := Cursor.advance_of_end view
    obtain ⟨f, other, passed⟩ := Cursor.advance_of_end seen
    rw [run, other]
    exact ⟨trivial, both.of_passes passes passed⟩
  · obtain ⟨e, run, passes⟩ := Cursor.advance_of_token view
    obtain ⟨f, other, passed⟩ := Cursor.advance_of_token seen
    rw [run, other]
    exact ⟨trivial, both.of_passes_one inside passes passed⟩
  · obtain ⟨c', run⟩ := Cursor.advance_of_error view
    obtain ⟨d', other⟩ := Cursor.advance_of_error seen
    rw [run, other]
    exact .inr (.lexical same)

/-- Where the first cursor can move on, both do. -/
theorem Cursors.advance {c d e : Cursor} (h : L.Cursors c d)
    (inside : L.token c.current d.current) (moved : Cursor.advance c = .ok () e) :
    ∃ k, Cursor.advance d = .ok () k ∧ L.Cursors e k := by
  have result := runs_advance h inside
  rw [Parser.liftM_ok.mpr moved] at result
  obtain ⟨_, k, again, -, further⟩ := result.of_ok
  exact ⟨k, Parser.liftM_ok.mp again, further⟩

theorem runs_unexpected : L.Runs Parser.unexpected Parser.unexpected r := by
  intro c d both _
  rcases both.sees with inside | stop
  · refine (runs_next both inside).bind fun t u e k _ _ same _ => ?_
    rcases same with same | stop
    · have errors := Errors.grammatical (.unexpected c.current.kind c.current.text) t.near inside
      refine .inr ?_
      rw [L.kind inside, L.text inside, near_eq same]
      exact errors
    · exact .inl (L.pardoned_of_stop stop _)
  · exact results_of_pardoned (L.pardoned_of_stop stop) (fun _ _ => Parser.not_unexpected_ok) _

/-- Taking one of these and going on, or going on at the same tokens. -/
theorem runs_consume_bind {pattern : Pattern} {f : Bool → Parser α} {g : Bool → Parser β}
    (yes : L.Runs (f true) (g true) r) (no : L.RunsFrom start (f false) (g false) r)
    (tells : L.Tells start pattern) :
    L.RunsFrom start (liftM (Cursor.consume pattern) >>= f) (liftM (Cursor.consume pattern) >>= g)
      r := by
  intro c d both holds
  obtain ⟨same, inside⟩ := tells holds both.sees
  rw [Parser.liftM_consume]
  simp only [bind_assoc, Parser.get_bind]
  rw [same]
  split
  · next accepted =>
    simp only [bind_assoc, pure_bind]
    exact (runs_advance.bind fun _ _ _ => yes) both (inside accepted)
  · rw [pure_bind, pure_bind]
    exact no both holds

theorem runs_consume {pattern : Pattern}
    (tells : L.Tells start pattern) :
    L.RunsFrom start (liftM (Cursor.consume pattern)) (liftM (Cursor.consume pattern)) Eq := by
  have both : L.RunsFrom start (liftM (Cursor.consume pattern) >>= pure)
      (liftM (Cursor.consume pattern) >>= pure) Eq :=
    runs_consume_bind (runs_pure rfl) (runs_pure rfl) tells
  simpa only [bind_pure] using both

theorem runs_takes (text : String)
    (tells : L.Tells start (.text text)) :
    L.RunsFrom start (Parser.takes text) (Parser.takes text) Eq :=
  runs_consume tells

theorem runs_takes_bind {text : String} {f : Bool → Parser α} {g : Bool → Parser β}
    (yes : L.Runs (f true) (g true) r) (no : L.RunsFrom start (f false) (g false) r)
    (tells : L.Tells start (.text text)) :
    L.RunsFrom start (Parser.takes text >>= f) (Parser.takes text >>= g) r :=
  runs_consume_bind yes no tells

theorem runs_nextMatchesAny (patterns : List Pattern)
    (others : patterns.all (!·.isStop)) :
    L.RunsFrom L.token (liftM (Cursor.nextMatchesAny patterns))
      (liftM (Cursor.nextMatchesAny patterns)) Eq := by
  rw [Parser.liftM_nextMatchesAny]
  exact runs_next.bind fun t u same => runs_pure (any_accepts_eq same others).symm

/-- Looking ahead leaves both cursors at their tokens. -/
theorem runs_nextMatchesAny_bind {patterns : List Pattern} {f : Bool → Parser α}
    {g : Bool → Parser β} (next : ∀ matched, L.RunsFrom L.token (f matched) (g matched) r)
    (others : patterns.all (!·.isStop)) :
    L.RunsFrom L.token (liftM (Cursor.nextMatchesAny patterns) >>= f)
      (liftM (Cursor.nextMatchesAny patterns) >>= g) r := by
  intro c d both inside
  refine (runs_nextMatchesAny patterns others both inside).bind
    fun matched _ e k first second alike further => ?_
  subst alike
  apply next matched further
  rw [(Parser.passes_of_nextMatchesAny first).current_eq,
    (Parser.passes_of_nextMatchesAny second).current_eq]
  exact inside

theorem runs_consumeNext (pattern : Pattern) (other : pattern.isStop = false) :
    L.RunsFrom L.token (liftM (Cursor.consumeNext pattern)) (liftM (Cursor.consumeNext pattern))
      Eq := by
  intro c d both inside
  rw [Parser.liftM_consumeNext]
  refine (runs_next both inside).bind fun t u e k first second same further => ?_
  rw [accepts_eq same other]
  split
  · next accepted =>
    have moved := Parser.liftM_ok.mp first
    have still : L.token e.current k.current := by
      rw [(Cursor.passes_of_next moved).current_eq,
        (Cursor.passes_of_next (Parser.liftM_ok.mp second)).current_eq]
      exact inside
    refine (runs_advance further still).bind fun _ _ e' k' once _ _ beyond => ?_
    -- The token that was looked at is the current one now, and it is no end token.
    have here : e'.current = t := Cursor.current_of_next_advance moved (Parser.liftM_ok.mp once)
    have another : L.token e'.current k'.current := by
      rcases beyond.sees with same | stop
      · exact same
      · rw [← here, (accepts_of_stop stop other).1] at accepted
        contradiction
    exact (runs_advance.bind fun _ _ _ => runs_pure rfl) beyond another
  · exact ⟨rfl, further⟩

theorem runs_discard (h : L.RunsFrom start p q r) :
    L.RunsFrom start (discard p) (discard q) fun _ _ => True := by
  intro c d both holds
  have result := h both holds
  change L.Results _ (EStateM.map _ p c) (EStateM.map _ q d)
  unfold EStateM.map
  cases run : p c <;> cases other : q d <;> rw [run, other] at result
  · exact ⟨trivial, result.2⟩
  · exact result
  · exact result
  · exact result

theorem runs_expect (text : String)
    (tells : L.Tells start (.text text)) :
    L.RunsFrom start (Parser.expect text) (Parser.expect text) fun _ _ => True :=
  runs_takes_bind (runs_pure trivial) (runs_expected _) tells

theorem same_identifier {t u : Token} (h : L.token t u) :
    L.Same Identifier.mapSpan (.ofToken t) (.ofToken u) := by
  simp only [Same, Identifier.mapSpan, Identifier.ofToken, L.text h, L.span h]

theorem runs_identifier :
    L.RunsFrom start Parser.identifier Parser.identifier (L.Same Identifier.mapSpan) := by
  refine runs_current_bind fun t u sees _ => ?_
  simp only [kind_eq_iff sees .identifier (by decide)]
  split
  · next named =>
    have same := sees.token_of_kind named (by decide)
    exact (runs_advance.bind fun _ _ _ => runs_pure (same_identifier same)).at same
  · exact runs_expected _

theorem runs_required {part : Parser (Option α)} {other : Parser (Option β)} (what : Expectation)
    (h : L.RunsFrom start part other (Option.Rel r)) :
    L.RunsFrom start (Parser.required what part) (Parser.required what other) r := by
  refine h.bind fun a b same => ?_
  cases same with
  | some same => exact runs_pure same
  | none => exact runs_expected what

theorem runs_behind (text : String) (h : L.Runs p q r)
    (tells : L.Tells start (.text text)) :
    L.RunsFrom start (Parser.behind text p) (Parser.behind text q) (Option.Rel r) :=
  runs_takes_bind (h.bind fun _ _ same => runs_pure (.some same)) (runs_pure .none) tells

/-- Loops that take something in every round. -/
theorem runs_many {step : Parser (Option α)} {other : Parser (Option β)}
    (h : L.Runs step other (Option.Rel r)) (shrinks : Parser.Shrinks step)
    (alsoShrinks : Parser.Shrinks other) :
    L.Runs (Parser.many step) (Parser.many other) (List.Forall₂ r) := by
  intro c d both _
  induction size : c.upcoming.length using Nat.strong_induction_on generalizing c d with
  | _ n ih =>
    rw [Parser.many_eq shrinks both.input, Parser.many_eq alsoShrinks both.other]
    refine (h both both.sees).bind fun a b e k run _ same further => ?_
    cases same with
    | none => exact ⟨.nil, further⟩
    | some same =>
      have less := (shrinks both.input run).2
      exact (ih _ (size ▸ less) further further.sees rfl).bind fun _ _ _ _ _ _ others last =>
        ⟨.cons same others, last⟩

theorem runs_grow {step : α → Parser (Option α)} {other : β → Parser (Option β)}
    (h : ∀ a b, r a b → L.Runs (step a) (other b) (Option.Rel r))
    (shrinks : ∀ a, Parser.Shrinks (step a)) (alsoShrinks : ∀ b, Parser.Shrinks (other b))
    {a : α} {b : β} (begins : r a b) : L.Runs (Parser.grow step a) (Parser.grow other b) r := by
  intro c d both _
  induction size : c.upcoming.length using Nat.strong_induction_on generalizing a b c d with
  | _ n ih =>
    rw [Parser.grow_eq shrinks both.input, Parser.grow_eq alsoShrinks both.other]
    refine (h a b begins both both.sees).bind fun _ _ e k run _ same further => ?_
    cases same with
    | none => exact ⟨begins, further⟩
    | some same =>
      have less := (shrinks a both.input run).2
      exact ih _ (size ▸ less) same further further.sees rfl

theorem runs_commaSeparated (h : L.Runs p q r) (shrinks : Parser.Shrinks (Parser.behind "," p))
    (alsoShrinks : Parser.Shrinks (Parser.behind "," q)) :
    L.Runs (Parser.commaSeparated p) (Parser.commaSeparated q) (List.Forall₂ r) :=
  h.bind fun _ _ first => (runs_many (runs_behind "," h (.other rfl)) shrinks alsoShrinks).bind
    fun _ _ others => runs_pure (.cons first others)

end Runs

theorem same_list {map : (Span → Span) → α → α} {first second : List α}
    (h : List.Forall₂ (L.Same map) first second) :
    first.map (map L.left) = second.map (map L.right) :=
  map_eq_map_of_forall₂ h

theorem same_option {map : (Span → Span) → α → α} {first second : Option α}
    (h : Option.Rel (L.Same map) first second) :
    first.map (map L.left) = second.map (map L.right) := by
  cases h with
  | none => rfl
  | some same => exact congrArg some same

end Likeness
end LuaFrontend
