import LuaFrontend.Proofs.ChunkReading
import LuaFrontend.Proofs.PrintedWords
import LuaFrontend.Proofs.RejoinedTokens
import LuaFrontend.Proofs.WordRuns

set_option autoImplicit false

/-
What a parser does with its first tokens does not depend on what is behind them. Where it succeeds,
the same tokens give the same value before other words that may stand there. Where it fails, it
fails before everything else too; and what it has taken up to there can be completed by words to
something that it accepts. Two parsers are treated together, since what is completed may nest deeper.
-/

namespace LuaFrontend

open Outcome (IsInput)

/-- What is said of a fault at a token, with this behind it. An unexpected token is quoted with the
next one, so that a faulty lexeme there comes first. -/
def SyntaxFault.report (fault : SyntaxFault) (t : Token) : List Outcome → Error
  | .error e :: _ =>
    match fault with
    | .unexpected _ _ => .lexical e
    | _ => .grammatical ⟨fault, t.start, t.near⟩
  | .ok next :: _ =>
    match fault with
    | .unexpected _ _ => .grammatical ⟨fault, t.start, next.near⟩
    | _ => .grammatical ⟨fault, t.start, t.near⟩
  | [] => .grammatical ⟨fault, t.start, t.near⟩

namespace Cursor

/-- These outcomes are before the cursor. -/
structure Faces (dialect : Dialect) (outcomes : List Outcome) (c : Cursor) : Prop where
  upcoming : c.upcoming = outcomes
  dialect_eq : c.dialect = dialect
  input : IsInput c.upcoming

/-- Every token before the cursor is read whole from its text. -/
structure IsLegible (dialect : Dialect) (c : Cursor) : Prop where
  input : IsInput c.upcoming
  dialect_eq : c.dialect = dialect
  whole : ∀ t, .ok t ∈ c.upcoming → t.isEnd = false → Word.IsWhole dialect t.spelling

namespace Faces

variable {dialect : Dialect} {outcomes rest : List Outcome} {c d : Cursor} {t u : Token}

theorem record (h : c.Faces dialect outcomes) (e : Event) : (c.record e).Faces dialect outcomes :=
  ⟨h.upcoming, h.dialect_eq, h.input⟩

theorem current (h : c.Faces dialect (.ok t :: rest)) : c.current = t :=
  Except.ok.inj (List.cons.inj h.upcoming).1

theorem of_passes (h : c.Faces dialect outcomes) (passes : c.Passes [] d) :
    d.Faces dialect outcomes :=
  ⟨passes.upcoming_eq.trans h.upcoming, passes.dialect.trans h.dialect_eq, passes.input h.input⟩

theorem of_passes_one (h : c.Faces dialect (.ok t :: rest)) (passes : c.Passes [u] d) :
    d.Faces dialect rest := by
  refine ⟨?_, passes.dialect.trans h.dialect_eq, passes.input h.input⟩
  have both := passes.upcoming.symm.trans h.upcoming
  exact (List.cons.inj both).2

theorem offers {tokens : List Token} (h : c.Faces dialect (tokens.map .ok)) :
    c.Offers dialect (tokens.map (·.spelling)) :=
  ⟨h.input, h.dialect_eq, tokens, h.upcoming, rfl⟩

end Faces

theorem IsLegible.faces {dialect : Dialect} {c : Cursor} (h : c.IsLegible dialect) :
    c.Faces dialect c.upcoming :=
  ⟨rfl, h.dialect_eq, h.input⟩

theorem IsLegible.record {dialect : Dialect} {c : Cursor} (h : c.IsLegible dialect) (e : Event) :
    (c.record e).IsLegible dialect :=
  ⟨h.input, h.dialect_eq, h.whole⟩

theorem IsLegible.behind {dialect : Dialect} {c d : Cursor} {tokens : List Token}
    (h : c.IsLegible dialect) (view : c.upcoming = tokens.map .ok ++ d.upcoming)
    (same : d.dialect = dialect) : d.IsLegible dialect := by
  refine ⟨?_, same, fun t member => h.whole t ?_⟩
  · have input := h.input
    rw [view] at input
    exact input.of_append (List.cons_ne_nil _ _)
  · rw [view]
    exact List.mem_append_right _ member

theorem isLegible_ofSource {dialect : Dialect} {source : String} {c : Cursor}
    (h : ofSource dialect source = .ok c) : c.IsLegible dialect := by
  obtain ⟨view, -, same, input, -⟩ := ofSource_view h
  refine ⟨input, same, fun t member more => ?_⟩
  rw [view, List.mem_append, List.mem_singleton] at member
  rcases member with item | last
  · exact Lexed.isWhole_of_mem_items (List.mem_filter.mp item).1
  · cases last
    rw [Lexed.isEnd_final] at more
    cases more

end Cursor

/-- How a parser goes about its text. -/
structure Conduct (α : Type) where
  /-- What may stand behind the tokens that it has taken. -/
  after : Word → Prop := fun _ => True
  /-- What may stand where it takes none. -/
  instead : Word → Prop := fun _ => True
  /-- What it gives where what it has taken is completed. -/
  good : α → Prop := fun _ => True
  /-- It takes a token if it succeeds. -/
  takes : Prop := False
  /-- At such a token it does not give up before it has taken it. -/
  enters : Token → Prop := fun _ => False
  /-- The words that make it succeed where it begins. -/
  words : List Word := []

namespace Conduct

variable {α β : Type}

def Allows (k : Conduct α) (taken : List Token) (w : Word) : Prop :=
  (taken = [] → k.instead w) ∧ (taken ≠ [] → k.after w)

/-- One parser behind another. -/
def thenOf (k : Conduct α) (l : Conduct β) : Conduct β where
  after w := l.after w ∧ (l.takes ∨ k.after w ∧ l.instead w)
  instead w := k.takes ∨ l.takes ∨ k.instead w ∧ l.instead w
  good := l.good
  takes := k.takes ∨ l.takes
  enters := k.enters
  words := k.words ++ l.words

/-- The second conduct promises no more than the first. -/
structure Covers (k m : Conduct α) : Prop where
  after : ∀ w, m.after w → k.after w
  instead : ∀ w, m.instead w → k.takes ∨ k.instead w
  good : ∀ a, k.good a → m.good a
  takes : m.takes → k.takes
  enters : ∀ t, m.enters t → k.enters t

end Conduct

namespace Parser

variable {α β : Type}

section Statements

variable (dialect : Dialect) (viable : Prop)

/-- The parser gives the value for these tokens, whatever is behind the next one, if that one is of
this sort. -/
def Yields (q : Parser α) (a : α) (taken : List Token) (next : Token → Prop) : Prop :=
  ∀ ⦃d t rest⦄, d.Faces dialect (taken.map .ok ++ .ok t :: rest) → next t →
    ∃ e, q d = .ok a e ∧ e.Faces dialect (.ok t :: rest)

/-- What is behind the token need not be compared, unless a level is missing there: then some
production may have looked at it. -/
def Comparable (fault : SyntaxFault) (rest other : List Outcome) : Prop :=
  fault = .nestingTooDeep →
    other.head? = rest.head? ∨ ∃ e, other.head? = some (.error e)

/-- The error is the fault at this token, or the faulty lexeme that is looked at before it. -/
def Repeats (fault : SyntaxFault) (t : Token) (rest : List Outcome) (x : Error) : Prop :=
  x = fault.report t rest ∨
    fault = .nestingTooDeep ∧ ∃ e, rest.head? = some (.error e) ∧ x = .lexical e

/-- Behind these tokens the parser finds the fault at that one, whatever is behind it. -/
def Refuses (q : Parser α) (fault : SyntaxFault) (taken : List Token) (t : Token)
    (rest : List Outcome) : Prop :=
  ∀ ⦃d other⦄, d.Faces dialect (taken.map .ok ++ .ok t :: other) →
    Comparable fault rest other → ∃ x e, q d = .error x e ∧ Repeats fault t other x

/-- Some words behind these tokens complete them to what the parser accepts. -/
def Completes (q : Parser α) (taken : List Token) (k : Conduct α) : Prop :=
  ∃ words, Proper dialect words ∧ ∀ ⦃d tokens v rest⦄, k.after v →
    d.Faces dialect ((taken ++ tokens).map .ok) →
    tokens.map (·.spelling) = words ++ v :: rest →
      ∃ a e, q d = .ok a e ∧ k.good a ∧ e.Offers dialect (v :: rest)

/-- What a run that gave a value shows of the other parser. -/
structure Took (q : Parser α) (k : Conduct α) (c : Cursor) (a : α) (e : Cursor)
    (taken : List Token) : Prop where
  upcoming : c.upcoming = taken.map .ok ++ e.upcoming
  dialect_eq : e.dialect = dialect
  some : k.takes ∨ k.enters c.current → taken ≠ []
  yields : Yields dialect q a taken fun t => t = e.current ∨ k.Allows taken t.spelling

/-- What a run that found a fault shows of the other parser. Either what it took is of interest, or
where it stopped. -/
structure Stuck (q : Parser α) (k : Conduct α) (c : Cursor) (x : SyntaxError)
    (taken : List Token) (t : Token) (rest : List Outcome) : Prop where
  upcoming : c.upcoming = taken.map .ok ++ .ok t :: rest
  same : .grammatical x = x.fault.report t rest
  some : k.enters c.current → taken = [] → x.fault = .nestingTooDeep
  refuses : ¬ viable → Refuses dialect q x.fault taken t rest
  completes : viable → x.fault ≠ .nestingTooDeep → taken ≠ [] → Completes dialect q taken k

/-- The second parser repeats what the first one did, as far as the first one came. -/
structure Foresees (start : Cursor → Prop) (p q : Parser α) (k : Conduct α) : Prop where
  ok : ∀ ⦃c a e⦄, c.IsLegible dialect → start c → p c = .ok a e →
    ∃ taken, Took dialect q k c a e taken
  error : ∀ ⦃c x e⦄, c.IsLegible dialect → start c → p c = .error (.grammatical x) e →
    ∃ taken t rest, Stuck dialect viable q k c x taken t rest

/-- The words of the conduct are read by the parser. -/
structure Feeds (q : Parser α) (k : Conduct α) : Prop where
  proper : Proper dialect k.words
  goes : ∀ v rest, k.after v → Goes dialect q (k.words ++ v :: rest) (v :: rest) k.good

/-- The parser foresees, and its words are known. -/
structure Foretells (p q : Parser α) (k : Conduct α) : Prop where
  foresees : Foresees dialect viable (fun _ => True) p q k
  feeds : viable → Feeds dialect q k

end Statements

variable {dialect : Dialect} {viable : Prop} {start : Cursor → Prop} {p q : Parser α}
  {k m : Conduct α}

section Basics

theorem Completes.mono {taken : List Token} (h : Completes dialect q taken k)
    (after : ∀ w, m.after w → k.after w) (good : ∀ a, k.good a → m.good a) :
    Completes dialect q taken m := by
  obtain ⟨words, proper, goes⟩ := h
  refine ⟨words, proper, fun d tokens v rest stops faces spelled => ?_⟩
  obtain ⟨a, e, run, isGood, left⟩ := goes (after v stops) faces spelled
  exact ⟨a, e, run, good a isGood, left⟩

theorem Completes.of_goes {taken : List Token} {words : List Word} (proper : Proper dialect words)
    (h : ∀ v rest, k.after v →
      Goes dialect q (taken.map (·.spelling) ++ (words ++ v :: rest)) (v :: rest) k.good) :
    Completes dialect q taken k := by
  refine ⟨words, proper, fun d tokens v rest stops faces spelled => h v rest stops ?_⟩
  rw [← spelled, ← List.map_append]
  exact faces.offers

/-- What a run shows for one conduct it shows for every other that promises no more. -/
theorem Took.mono {c e : Cursor} {a : α} {taken : List Token} (h : Took dialect q k c a e taken)
    (covers : k.Covers m) : Took dialect q m c a e taken where
  upcoming := h.upcoming
  dialect_eq := h.dialect_eq
  some enough := h.some (enough.imp covers.takes (covers.enters _))
  yields d t rest faces next := by
    refine h.yields faces (next.imp_right fun allowed => ⟨fun none => ?_, fun more => ?_⟩)
    · exact (covers.instead _ (allowed.1 none)).resolve_left fun takes => h.some (.inl takes) none
    · exact covers.after _ (allowed.2 more)

theorem Stuck.mono {c : Cursor} {x : SyntaxError} {taken : List Token} {t : Token}
    {rest : List Outcome} (h : Stuck dialect viable q k c x taken t rest) (covers : k.Covers m) :
    Stuck dialect viable q m c x taken t rest where
  upcoming := h.upcoming
  same := h.same
  some enters := h.some (covers.enters _ enters)
  refuses := h.refuses
  completes can deep some := (h.completes can deep some).mono covers.after covers.good

theorem Foresees.mono (h : Foresees dialect viable start p q k) (covers : k.Covers m) :
    Foresees dialect viable start p q m where
  ok c a e legible begins run := by
    obtain ⟨taken, took⟩ := h.ok legible begins run
    exact ⟨taken, took.mono covers⟩
  error c x e legible begins run := by
    obtain ⟨taken, t, rest, stuck⟩ := h.error legible begins run
    exact ⟨taken, t, rest, stuck.mono covers⟩

theorem Foresees.from {other : Cursor → Prop} (h : Foresees dialect viable start p q k)
    (sub : ∀ c, other c → start c) : Foresees dialect viable other p q k where
  ok _ _ _ legible begins run := h.ok legible (sub _ begins) run
  error _ _ _ legible begins run := h.error legible (sub _ begins) run

/-- What is never begun is foreseen. -/
theorem foresees_nowhere (h : ∀ c, ¬ start c) : Foresees dialect viable start p q k :=
  ⟨fun c _ _ _ begins => absurd begins (h c), fun c _ _ _ begins => absurd begins (h c)⟩

/-- Where the parser is begun, it enters at these tokens. -/
theorem Foresees.entering {enters : Token → Prop} (h : Foresees dialect viable start p q k)
    (sub : ∀ c, start c → enters c.current → k.enters c.current) :
    Foresees dialect viable start p q { k with enters := enters } where
  ok c a e legible begins run := by
    obtain ⟨taken, took⟩ := h.ok legible begins run
    exact ⟨taken, took.upcoming, took.dialect_eq, fun some => took.some (some.imp_right (sub c begins)),
      took.yields⟩
  error c x e legible begins run := by
    obtain ⟨taken, t, rest, stuck⟩ := h.error legible begins run
    exact ⟨taken, t, rest, stuck.upcoming, stuck.same, fun enters => stuck.some (sub c begins enters),
      stuck.refuses, stuck.completes⟩

/-- If a token was taken, it does not matter what may stand where none is. -/
theorem Took.taking {enters : Token → Prop} {c e : Cursor} {a : α} {taken : List Token}
    (h : Took dialect q k c a e taken) (some : taken ≠ []) :
    Took dialect q { k with takes := True, instead := fun _ => True, enters := enters } c a e taken
    where
  upcoming := h.upcoming
  dialect_eq := h.dialect_eq
  some _ := some
  yields _ _ _ faces next :=
    h.yields faces (next.imp_right fun allowed => ⟨fun none => absurd none some, allowed.2⟩)

/-- Where the parser succeeds it has taken a token. -/
theorem Foresees.taking (h : Foresees dialect viable start p q k)
    (moves : ∀ ⦃c a e⦄, IsInput c.upcoming → p c = .ok a e → e.upcoming ≠ c.upcoming) :
    Foresees dialect viable start p q { k with takes := True, instead := fun _ => True } where
  ok c a e legible begins run := by
    obtain ⟨taken, took⟩ := h.ok legible begins run
    have some : taken ≠ [] := by
      rintro rfl
      exact moves legible.input run took.upcoming.symm
    exact ⟨taken, took.taking some⟩
  error c x e legible begins run := by
    obtain ⟨taken, t, rest, stuck⟩ := h.error legible begins run
    exact ⟨taken, t, rest, stuck.upcoming, stuck.same, stuck.some, stuck.refuses, stuck.completes⟩

/-- What a run shows of a parser it shows of every other that does the same before these tokens. -/
theorem Took.of_eq {q' : Parser α} {c e : Cursor} {a : α} {taken : List Token}
    (h : Took dialect q' k c a e taken)
    (same : ∀ ⦃d t rest⦄, d.Faces dialect (taken.map .ok ++ .ok t :: rest) →
      t = e.current ∨ k.Allows taken t.spelling → q d = q' d) : Took dialect q k c a e taken where
  upcoming := h.upcoming
  dialect_eq := h.dialect_eq
  some := h.some
  yields d t rest faces next := by
    rw [same faces next]
    exact h.yields faces next

theorem Completes.of_eq {q' : Parser α} {taken : List Token} (h : Completes dialect q' taken k)
    (same : ∀ ⦃d tokens⦄, d.Faces dialect ((taken ++ tokens).map .ok) → q d = q' d) :
    Completes dialect q taken k := by
  obtain ⟨words, proper, goes⟩ := h
  refine ⟨words, proper, fun d tokens w rest stops faces spelled => ?_⟩
  rw [same faces]
  exact goes stops faces spelled

theorem Stuck.of_eq {q' : Parser α} {c : Cursor} {x : SyntaxError} {taken : List Token} {t : Token}
    {rest : List Outcome} (h : Stuck dialect viable q' k c x taken t rest)
    (here : ∀ ⦃d other⦄, d.Faces dialect (taken.map .ok ++ .ok t :: other) → q d = q' d)
    (further : taken ≠ [] → ∀ ⦃d tokens⦄, d.Faces dialect ((taken ++ tokens).map .ok) →
      q d = q' d) : Stuck dialect viable q k c x taken t rest where
  upcoming := h.upcoming
  same := h.same
  some := h.some
  refuses can d other faces alike := by
    rw [here faces]
    exact h.refuses can faces alike
  completes can deep some := (h.completes can deep some).of_eq (further some)

/-- Parsers that come to the same are foreseen alike. -/
theorem Foresees.congr {p' q' : Parser α} (h : Foresees dialect viable start p' q' k)
    (first : ∀ c, IsInput c.upcoming → c.dialect = dialect → p c = p' c)
    (second : ∀ c, IsInput c.upcoming → c.dialect = dialect → q c = q' c) :
    Foresees dialect viable start p q k where
  ok c a e legible begins run := by
    rw [first c legible.input legible.dialect_eq] at run
    obtain ⟨taken, took⟩ := h.ok legible begins run
    exact ⟨taken, took.of_eq fun d _ _ faces _ => second d faces.input faces.dialect_eq⟩
  error c x e legible begins run := by
    rw [first c legible.input legible.dialect_eq] at run
    obtain ⟨taken, t, rest, stuck⟩ := h.error legible begins run
    exact ⟨taken, t, rest, stuck.of_eq (fun d _ faces => second d faces.input faces.dialect_eq)
      fun _ d _ faces => second d faces.input faces.dialect_eq⟩

end Basics

section Sequence

/-- Where one parser has left off before their head, the words make the next ones succeed. -/
structure Continues (dialect : Dialect) (f : α → Parser β) (those : α → Prop) (words : List Word)
    (after : Word → Prop) (m : Conduct β) : Prop where
  proper : Proper dialect words
  head : ∀ v, m.after v → after (words.headD v)
  goes : ∀ a, those a → ∀ v rest, m.after v →
    Goes dialect (f a) (words ++ v :: rest) (v :: rest) m.good

theorem exists_cons_append (words : List Word) (v : Word) (rest : List Word) :
    ∃ others, words ++ v :: rest = words.headD v :: others := by
  cases words with
  | nil => exact ⟨rest, rfl⟩
  | cons w words => exact ⟨_, rfl⟩

variable {f f' : α → Parser β} {l : Conduct β} {n : Conduct β} {words : List Word}

/-- The first parser is completed, and the second one is given words of its own. -/
theorem Completes.bind {taken : List Token} (h : Completes dialect q taken k)
    (next : Continues dialect f k.good words k.after n) : Completes dialect (q >>= f) taken n := by
  obtain ⟨front, proper, goes⟩ := h
  refine ⟨front ++ words, Proper.append_iff.mpr ⟨proper, next.proper⟩, ?_⟩
  intro d tokens v rest stops faces spelled
  obtain ⟨others, head⟩ := exists_cons_append words v rest
  rw [List.append_assoc, head] at spelled
  obtain ⟨a, e, run, isGood, left⟩ := goes (next.head v stops) faces spelled
  rw [← head] at left
  obtain ⟨b, g, further, isFine, last⟩ := next.goes a isGood v rest stops left
  exact ⟨b, g, bind_ok.mpr ⟨a, e, run, further⟩, isFine, last⟩

/-- Where the first parser finds a fault the second one is not begun. -/
theorem Refuses.bind {fault : SyntaxFault} {taken : List Token} {t : Token} {rest : List Outcome}
    (h : Refuses dialect q fault taken t rest) : Refuses dialect (q >>= f) fault taken t rest := by
  intro d other faces alike
  obtain ⟨x, e, same, repeats⟩ := h faces alike
  exact ⟨x, e, bind_eq_of_error same, repeats⟩

variable {a : α} {c e : Cursor} {first : List Token}

/-- Before a token that it may stand before, the first parser gives what it gave. -/
theorem Took.run (h : Took dialect q k c a e first) {d : Cursor} {t : Token}
    {rest : List Outcome} (faces : d.Faces dialect (first.map .ok ++ .ok t :: rest))
    (next : t = e.current ∨ k.Allows first t.spelling) :
    ∃ g, (q >>= f) d = f a g ∧ g.Faces dialect (.ok t :: rest) := by
  obtain ⟨g, run, left⟩ := h.yields faces next
  exact ⟨g, bind_eq_of_ok run, left⟩

/-- Where the input is the same behind a part, nothing has been taken. -/
theorem Took.nil_of_upcoming (h : Took dialect q k c a e first) (same : e.upcoming = c.upcoming) :
    first = [] := by
  have length := congrArg List.length h.upcoming
  rw [same, List.length_append, List.length_map] at length
  exact List.eq_nil_of_length_eq_zero (by omega)

theorem current_of_upcoming {t : Token} {rest : List Outcome}
    (h : e.upcoming = .ok t :: rest) : e.current = t :=
  Except.ok.inj (List.cons.inj h).1

/-- The first parser succeeds, and what the second one has taken is completed. -/
theorem Took.completes_some (h : Took dialect q k c a e first) {second : List Token}
    {rest : List Outcome} (view : e.upcoming = second.map .ok ++ rest) (some : second ≠ [])
    (next : Completes dialect (f a) second l) (after : ∀ w, n.after w → l.after w)
    (good : ∀ b, l.good b → n.good b) : Completes dialect (q >>= f) (first ++ second) n := by
  obtain ⟨words, proper, goes⟩ := next
  refine ⟨words, proper, fun d tokens v rest stops faces spelled => ?_⟩
  obtain ⟨t, others, rfl⟩ := List.exists_cons_of_ne_nil some
  rw [List.append_assoc, List.map_append] at faces
  obtain ⟨g, run, left⟩ := h.run (f := f) faces (.inl (current_of_upcoming view).symm)
  obtain ⟨b, k, further, isFine, last⟩ := goes (after v stops) left spelled
  exact ⟨b, k, run.trans further, good b isFine, last⟩

/-- The first parser succeeds, and where the second one begins words are put in. -/
theorem Took.completes_none (h : Took dialect q k c a e first) (some : first ≠ [])
    (next : Continues dialect f (· = a) words k.after n) : Completes dialect (q >>= f) first n := by
  refine ⟨words, next.proper, fun d tokens v rest stops faces spelled => ?_⟩
  obtain ⟨others, head⟩ := exists_cons_append words v rest
  obtain ⟨t, behind, rfl, here, -⟩ := List.map_eq_cons_iff.mp (spelled.trans head)
  have allowed : k.Allows first t.spelling :=
    ⟨fun none => absurd none some, fun _ => here ▸ next.head v stops⟩
  rw [List.map_append] at faces
  obtain ⟨g, run, left⟩ := h.run (f := f) faces (.inr allowed)
  have offers : g.Offers dialect ((t :: behind).map (·.spelling)) := left.offers
  rw [spelled] at offers
  obtain ⟨b, i, further, isFine, last⟩ := next.goes a rfl v rest stops offers
  exact ⟨b, i, run.trans further, isFine, last⟩

/-- What both parsers have taken is completed. -/
theorem Took.completes_bind (h : Took dialect q k c a e first) {second : List Token}
    {rest : List Outcome} (view : e.upcoming = second.map .ok ++ rest)
    (some : first ++ second ≠ [])
    (next : second ≠ [] → Completes dialect (f a) second l)
    (reached : first ≠ [] → Completes dialect (q >>= f) first (k.thenOf l)) :
    Completes dialect (q >>= f) (first ++ second) (k.thenOf l) := by
  by_cases none : second = []
  · subst none
    rw [List.append_nil] at some ⊢
    exact reached some
  · exact h.completes_some view none (next none) (fun _ allowed => allowed.1) fun _ => id

/-- Two parsers in sequence give what they gave, before what may stand behind both. -/
theorem Took.yields_bind {second : List Token} {b : β} {g : Cursor}
    (h : Took dialect q k c a e first) (also : Took dialect (f a) l e b g second) :
    Yields dialect (q >>= f) b (first ++ second)
      fun t => t = g.current ∨ (k.thenOf l).Allows (first ++ second) t.spelling := by
  intro d t rest faces behind
  rw [List.map_append, List.append_assoc] at faces
  cases second with
  | nil =>
    have here : e.current = g.current := current_of_upcoming also.upcoming
    rw [List.append_nil] at behind
    have both : t = g.current ∨ k.Allows first t.spelling ∧ l.instead t.spelling := by
      refine behind.imp_right fun allowed => ?_
      have noTakes : ¬ l.takes := fun takes => also.some (.inl takes) rfl
      by_cases none : first = []
      · have noFirst : ¬ k.takes := fun takes => h.some (.inl takes) none
        obtain ⟨front, instead⟩ :=
          ((allowed.1 none).resolve_left noFirst).resolve_left noTakes
        exact ⟨⟨fun _ => front, fun some => absurd none some⟩, instead⟩
      · obtain ⟨front, instead⟩ := (allowed.2 none).2.resolve_left noTakes
        exact ⟨⟨fun empty => absurd empty none, fun _ => front⟩, instead⟩
    obtain ⟨i, same, left⟩ := h.run (f := f) faces (both.imp (·.trans here.symm) (·.1))
    rw [same]
    exact also.yields left (both.imp_right fun allowed => ⟨fun _ => allowed.2, nofun⟩)
  | cons u others =>
    obtain ⟨i, same, left⟩ := h.run (f := f) faces (.inl (current_of_upcoming also.upcoming).symm)
    rw [same]
    refine also.yields left (behind.imp_right fun allowed => ⟨nofun, fun _ => ?_⟩)
    exact (allowed.2 (by simp)).1

/-- The first parser succeeds, and the second one finds its fault again. -/
theorem Took.refuses_bind {second : List Token} {x : SyntaxError} {t : Token}
    {rest : List Outcome} (h : Took dialect q k c a e first)
    (view : e.upcoming = second.map .ok ++ .ok t :: rest)
    (refuses : Refuses dialect (f a) x.fault second t rest) :
    Refuses dialect (q >>= f) x.fault (first ++ second) t rest := by
  intro d other faces alike
  rw [List.map_append, List.append_assoc] at faces
  have next : ∃ u behind, second.map .ok ++ Except.ok t :: other = Except.ok u :: behind ∧
      u = e.current := by
    cases second with
    | nil => exact ⟨t, other, rfl, (current_of_upcoming view).symm⟩
    | cons u others => exact ⟨u, _, rfl, (current_of_upcoming view).symm⟩
  obtain ⟨u, behind, split, here⟩ := next
  rw [split] at faces
  obtain ⟨g, same, left⟩ := h.run (f := f) faces (.inl here)
  rw [same]
  exact refuses (split ▸ left) alike

/-- A sequence is foreseen if its parts are. It has to be known how to complete it where only the
second part fails, and with which words to go on behind the completion of the first one. -/
theorem Foresees.bind_of (h : Foresees dialect viable start p q k)
    (next : ∀ a, Foresees dialect viable (fun e => ∃ c, IsInput c.upcoming ∧ start c ∧ p c = .ok a e)
      (f a) (f' a) l)
    (reached : viable → ∀ ⦃c a e x g taken⦄, c.IsLegible dialect → p c = .ok a e →
      f a e = .error (.grammatical x) g → Took dialect q k c a e taken → taken ≠ [] →
        Completes dialect (q >>= f') taken (k.thenOf l))
    (completed : viable → ∃ words, Continues dialect f' k.good words k.after (k.thenOf l)) :
    Foresees dialect viable start (p >>= f) (q >>= f') (k.thenOf l) where
  ok c b g legible begins run := by
    obtain ⟨a, e, ofFirst, ofSecond⟩ := bind_ok.mp run
    obtain ⟨first, took⟩ := h.ok legible begins ofFirst
    have further := legible.behind took.upcoming took.dialect_eq
    obtain ⟨second, also⟩ := (next a).ok further ⟨c, legible.input, begins, ofFirst⟩ ofSecond
    refine ⟨first ++ second, ?_, also.dialect_eq, ?_, took.yields_bind also⟩
    · rw [took.upcoming, also.upcoming, List.map_append, List.append_assoc]
    · rintro ((takes | takes) | enters) none
      · exact took.some (.inl takes) (List.append_eq_nil_iff.mp none).1
      · exact also.some (.inl takes) (List.append_eq_nil_iff.mp none).2
      · exact took.some (.inr enters) (List.append_eq_nil_iff.mp none).1
  error c x g legible begins run := by
    cases ofFirst : p c with
    | error y e =>
      rw [bind_eq_of_error ofFirst] at run
      cases run
      obtain ⟨first, t, rest, stuck⟩ := h.error legible begins ofFirst
      refine ⟨first, t, rest, stuck.upcoming, stuck.same, stuck.some, fun v => (stuck.refuses v).bind,
        fun v deep some => ?_⟩
      obtain ⟨words, continues⟩ := completed v
      exact (stuck.completes v deep some).bind continues
    | ok a e =>
      rw [bind_eq_of_ok ofFirst] at run
      obtain ⟨first, took⟩ := h.ok legible begins ofFirst
      have further := legible.behind took.upcoming took.dialect_eq
      obtain ⟨second, t, rest, stuck⟩ :=
        (next a).error further ⟨c, legible.input, begins, ofFirst⟩ run
      refine ⟨first ++ second, t, rest, ?_, stuck.same, fun enters none => ?_,
        fun v => took.refuses_bind stuck.upcoming (stuck.refuses v), fun v deep some => ?_⟩
      · rw [took.upcoming, stuck.upcoming, List.map_append, List.append_assoc]
      · exact absurd (List.append_eq_nil_iff.mp none).1 (took.some (.inr enters))
      · exact took.completes_bind stuck.upcoming some (stuck.completes v deep)
          (reached v legible ofFirst run took)

/-- A sequence whose second part has words of its own, whatever the first one gives. -/
theorem Foresees.bind [Nonempty α] (h : Foresees dialect viable start p q k)
    (next : ∀ a, Foretells dialect viable (f a) (f' a) l)
    (head : ∀ v, (k.thenOf l).after v → k.after (l.words.headD v)) :
    Foresees dialect viable start (p >>= f) (q >>= f') (k.thenOf l) := by
  have words (v : viable) (those : α → Prop) :
      Continues dialect f' those l.words k.after (k.thenOf l) := by
    obtain ⟨a⟩ := ‹Nonempty α›
    refine ⟨((next a).feeds v).proper, head, fun b _ w rest stops => ?_⟩
    exact ((next b).feeds v).goes w rest stops.1
  refine h.bind_of (fun a => (next a).foresees.from fun _ _ => trivial) ?_ ?_
  · exact fun v c a e x g taken _ _ _ took some => took.completes_none some (words v _)
  · exact fun v => ⟨_, words v _⟩

theorem Foretells.bind [Nonempty α] (h : Foretells dialect viable p q k)
    (next : ∀ a, Foretells dialect viable (f a) (f' a) l)
    (head : ∀ v, (k.thenOf l).after v → k.after (l.words.headD v)) :
    Foretells dialect viable (p >>= f) (q >>= f') (k.thenOf l) where
  foresees := h.foresees.bind next head
  feeds v := by
    obtain ⟨a⟩ := ‹Nonempty α›
    refine ⟨Proper.append_iff.mpr ⟨(h.feeds v).proper, ((next a).feeds v).proper⟩, ?_⟩
    intro w rest stops
    obtain ⟨others, same⟩ := exists_cons_append l.words w rest
    have second (b : α) := ((next b).feeds v).goes w rest stops.1
    simp only [Conduct.thenOf, List.append_assoc]
    rw [same] at second ⊢
    exact ((h.feeds v).goes _ others (head w stops)).bind fun b _ => second b

/-- Behind what is used no words are needed. -/
theorem continues_pure {f : α → β} {those : α → Prop} {after : Word → Prop} {n : Conduct β}
    (stops : ∀ w, n.after w → after w) (fine : ∀ a, those a → n.good (f a)) :
    Continues dialect (fun a => pure (f a)) those [] after n where
  proper := .nil
  head := stops
  goes a those _ _ _ := goes_pure (fine a those)

/-- What a parser gives is used, and nothing else is done. -/
theorem Foresees.then_pure {f : α → β} (good : β → Prop)
    (h : Foresees dialect viable start p q k) (fine : ∀ a, k.good a → good (f a)) :
    Foresees dialect viable start (p >>= fun a => pure (f a)) (q >>= fun a => pure (f a))
      { after := k.after, instead := k.instead, good := good, takes := k.takes,
        enters := k.enters, words := k.words } where
  ok c b e legible begins run := by
    obtain ⟨a, g, ofFirst, result⟩ := bind_ok.mp run
    obtain ⟨rfl, rfl⟩ := pure_ok.mp result
    obtain ⟨taken, took⟩ := h.ok legible begins ofFirst
    exact ⟨taken, took.upcoming, took.dialect_eq, took.some, fun _ _ _ faces next =>
      took.run faces next⟩
  error c x e legible begins run := by
    cases ofFirst : p c with
    | ok a g =>
      rw [bind_eq_of_ok ofFirst] at run
      cases run
    | error y g =>
      rw [bind_eq_of_error ofFirst] at run
      cases run
      obtain ⟨taken, t, rest, stuck⟩ := h.error legible begins ofFirst
      exact ⟨taken, t, rest, stuck.upcoming, stuck.same, stuck.some, fun v => (stuck.refuses v).bind,
        fun v deep some => (stuck.completes v deep some).bind (continues_pure (fun _ => id) fine)⟩

theorem Foretells.then_pure {f : α → β} (good : β → Prop)
    (h : Foretells dialect viable p q k) (fine : ∀ a, k.good a → good (f a)) :
    Foretells dialect viable (p >>= fun a => pure (f a)) (q >>= fun a => pure (f a))
      { after := k.after, instead := k.instead, good := good, takes := k.takes,
        enters := k.enters, words := k.words } where
  foresees := h.foresees.then_pure good fine
  feeds v := ⟨(h.feeds v).proper, fun w rest stops =>
    ((h.feeds v).goes w rest stops).bind fun a isGood => goes_pure (fine a isGood)⟩

end Sequence

end Parser
end LuaFrontend
