import LuaFrontend.Proofs.LayoutInvariance
import LuaFrontend.Proofs.PrintedForm

set_option autoImplicit false

namespace LuaFrontend

open Outcome (IsInput)

namespace Word

/-- The word as a token. -/
def token (w : Word) (start : Position) : Token := ⟨w.1, w.2, start⟩

/-- The language spells the word so. -/
def isText (w : Word) (text : String) : Bool := !Pattern.isFreelySpelled w.1 && w.2 == text

theorem isText_of_isFreelySpelled {w : Word} (h : Pattern.isFreelySpelled w.1) (text : String) :
    w.isText text = false := by
  simp [isText, h]

theorem isWord_eq_false {w : Word} {text : String} {start : Position}
    (h : w.isText text = false) : (w.token start).isWord text = false := by
  by_contra found
  simp only [Token.isWord, Token.isKeyword, Bool.not_eq_false, Bool.and_eq_true,
    beq_iff_eq] at found
  have spelled : w.isText text = true := by
    simp only [isText, Bool.and_eq_true, beq_iff_eq]
    exact ⟨by rw [show w.1 = .keyword from found.1]; rfl, found.2⟩
  rw [h] at spelled
  cases spelled

/-- A word that is not the end of the text. -/
def isSome (w : Word) : Bool := w.1 != .endOfInput

theorem isSome_of_isText {w : Word} {text : String} (h : w.isText text) : w.isSome := by
  have spelled : Pattern.isFreelySpelled w.1 = false := by
    simp only [isText, Bool.and_eq_true, Bool.not_eq_true'] at h
    exact h.1
  rw [isSome, bne_iff_ne]
  intro last
  rw [last] at spelled
  cases spelled

theorem isSome_of_kind {w : Word} {kind : TokenKind} (h : w.1 = kind)
    (other : kind ≠ .endOfInput) : w.isSome := by
  rw [isSome, bne_iff_ne, h]
  exact other

end Word

/-- These words are before the cursor, up to the end of the text. -/
structure Cursor.Offers (dialect : Dialect) (words : List Word) (c : Cursor) : Prop where
  input : IsInput c.upcoming
  dialect_eq : c.dialect = dialect
  words : ∃ tokens : List Token, c.upcoming = tokens.map .ok ∧ tokens.map (·.spelling) = words

namespace Cursor.Offers

variable {dialect : Dialect} {w : Word} {rest : List Word} {c : Cursor}

theorem record (h : c.Offers dialect rest) (e : Event) : (c.record e).Offers dialect rest :=
  ⟨h.input, h.dialect_eq, h.words⟩

theorem view (h : c.Offers dialect (w :: rest)) : ∃ others : List Token,
    c.upcoming = .ok c.current :: others.map .ok ∧ c.current.spelling = w ∧
      others.map (·.spelling) = rest := by
  obtain ⟨tokens, upcoming, spelled⟩ := h.words
  cases tokens with
  | nil => cases spelled
  | cons t others =>
    obtain ⟨first, same⟩ := List.cons.inj spelled
    have current : t = c.current := Except.ok.inj (List.cons.inj upcoming.symm).1
    rw [current] at upcoming first
    exact ⟨others, upcoming, first, same⟩

theorem current (h : c.Offers dialect (w :: rest)) : ∃ start, c.current = w.token start := by
  obtain ⟨others, -, first, -⟩ := h.view
  exact ⟨c.current.start, by rw [← first]; rfl⟩

theorem of_passes {d : Cursor} (h : c.Offers dialect rest) (passes : c.Passes [] d) :
    d.Offers dialect rest := by
  refine ⟨passes.input h.input, passes.dialect.trans h.dialect_eq, ?_⟩
  rw [passes.upcoming_eq]
  exact h.words

theorem of_passes_one {t : Token} {d : Cursor} (h : c.Offers dialect (w :: rest))
    (passes : c.Passes [t] d) : d.Offers dialect rest := by
  obtain ⟨others, upcoming, -, same⟩ := h.view
  refine ⟨passes.input h.input, passes.dialect.trans h.dialect_eq, others, ?_, same⟩
  rw [passes.upcoming] at upcoming
  exact (List.cons.inj upcoming).2

/-- A word that is not the end of the text has another one behind it. -/
theorem behind (h : c.Offers dialect (w :: rest)) (more : w.isSome) :
    ∃ u others start after, rest = u :: others ∧
      c.upcoming = .ok c.current :: .ok (u.token start) :: after := by
  obtain ⟨others, upcoming, first, same⟩ := h.view
  have notLast : c.current.isEnd = false := by
    rw [← first] at more
    simpa [Token.isEnd, Token.spelling, Word.isSome] using more
  cases others with
  | nil =>
    have input := h.input
    rw [upcoming] at input
    exact absurd rfl (input.tail_ne_nil notLast)
  | cons u others => exact ⟨u.spelling, _, u.start, others.map .ok, same.symm, upcoming⟩

theorem hasText (h : c.Offers dialect (w :: rest)) (text : String) :
    c.hasText text = w.isText text := by
  obtain ⟨start, same⟩ := h.current
  rw [Cursor.hasText, same]
  rfl

theorem matchesAny (h : c.Offers dialect (w :: rest)) (first second : String) :
    c.matchesAny [.text first, .text second] = (w.isText first || w.isText second) := by
  obtain ⟨start, same⟩ := h.current
  simp only [Cursor.matchesAny, same, List.any_cons, List.any_nil, Bool.or_false]
  rfl

end Cursor.Offers

/-- Where these words are before the cursor the parser succeeds; what it gives is good, and the rest
of the words is left. -/
def Parser.Goes {α : Type} (dialect : Dialect) (p : Parser α) (words rest : List Word)
    (good : α → Prop) : Prop :=
  ∀ ⦃c⦄, Cursor.Offers dialect words c → ∃ a d, p c = .ok a d ∧ good a ∧ d.Offers dialect rest

/-- A part that is there. -/
def Present {α : Type} (good : α → Prop) (part : Option α) : Prop := ∃ a, part = some a ∧ good a

namespace Parser

variable {α β : Type} {dialect : Dialect} {w : Word} {words middle rest : List Word}
  {p : Parser α} {good : α → Prop} {fine : β → Prop}

theorem Goes.mono {better : α → Prop} (h : Goes dialect p words rest good)
    (sub : ∀ a, good a → better a) : Goes dialect p words rest better := by
  intro c offers
  obtain ⟨a, d, run, isGood, left⟩ := h offers
  exact ⟨a, d, run, sub a isGood, left⟩

theorem goes_pure {a : α} (h : good a) : Goes dialect (pure a) words words good :=
  fun c offers => ⟨a, c, rfl, h, offers⟩

theorem Goes.bind {f : α → Parser β} (h : Goes dialect p words middle good)
    (next : ∀ a, good a → Goes dialect (f a) middle rest fine) :
    Goes dialect (p >>= f) words rest fine := by
  intro c offers
  obtain ⟨a, d, run, isGood, left⟩ := h offers
  obtain ⟨b, e, other, isFine, further⟩ := next a isGood left
  exact ⟨b, e, bind_ok.mpr ⟨a, d, run, other⟩, isFine, further⟩

theorem Goes.yes {test : Parser Bool} {p q : Parser α}
    (h : Goes dialect test words middle (· = true)) (g : Goes dialect p middle rest good) :
    Goes dialect (do if ← test then p else q) words rest good := by
  refine h.bind fun result same => ?_
  subst same
  exact g

theorem Goes.no {test : Parser Bool} {p q : Parser α}
    (h : Goes dialect test words middle (· = false)) (g : Goes dialect q middle rest good) :
    Goes dialect (do if ← test then p else q) words rest good := by
  refine h.bind fun result same => ?_
  subst same
  exact g

theorem goes_production {production : Production} (h : Goes dialect p words rest good) :
    Goes dialect (Parser.production production p) words rest good := by
  intro c offers
  obtain ⟨a, d, run, isGood, left⟩ := h (offers.record (.enter production))
  exact ⟨a, _, production_ok.mpr ⟨d, run, rfl⟩, isGood, left.record _⟩

theorem goes_current {f : Token → Parser β}
    (h : ∀ start, Goes dialect (f (w.token start)) (w :: words) rest fine) :
    Goes dialect (current >>= f) (w :: words) rest fine := by
  intro c offers
  obtain ⟨start, same⟩ := offers.current
  rw [current_bind, same]
  exact h start offers

theorem goes_get {f : Cursor → Parser β}
    (h : ∀ c, c.Offers dialect words → Goes dialect (f c) words rest fine) :
    Goes dialect (get >>= f) words rest fine := by
  intro c offers
  rw [get_bind]
  exact h c offers offers

theorem goes_advance (h : w.isSome) :
    Goes dialect (liftM Cursor.advance) (w :: rest) rest fun _ => True := by
  intro c offers
  obtain ⟨u, others, start, after, -, view⟩ := offers.behind h
  obtain ⟨d, run, passes⟩ := Cursor.advance_of_token view
  exact ⟨(), d, liftM_ok.mpr run, trivial, offers.of_passes_one passes⟩

theorem goes_next {u : Word} (h : w.isSome) :
    Goes dialect (liftM Cursor.next) (w :: u :: rest) (w :: u :: rest)
      fun t => ∃ start, t = u.token start := by
  intro c offers
  obtain ⟨v, others, start, after, same, view⟩ := offers.behind h
  cases same
  obtain ⟨d, run, passes⟩ := Cursor.next_of_token view
  exact ⟨_, d, liftM_ok.mpr run, ⟨start, rfl⟩, offers.of_passes passes⟩

theorem goes_nextMatchesAny {u : Word} {pattern : Pattern} {result : Bool} (h : w.isSome)
    (same : ∀ start, pattern.accepts (u.token start) = result) :
    Goes dialect (liftM (Cursor.nextMatchesAny [pattern])) (w :: u :: rest) (w :: u :: rest)
      (· = result) := by
  rw [liftM_nextMatchesAny]
  refine (goes_next h).bind ?_
  rintro _ ⟨start, rfl⟩
  refine goes_pure ?_
  rw [List.any_cons, List.any_nil, Bool.or_false, same]

theorem goes_consume {pattern : Pattern} (h : w.isSome)
    (accepts : ∀ start, pattern.accepts (w.token start)) :
    Goes dialect (liftM (Cursor.consume pattern)) (w :: rest) rest (· = true) := by
  rw [liftM_consume]
  refine goes_get fun c offers => ?_
  obtain ⟨start, same⟩ := offers.current
  rw [same, if_pos (accepts start)]
  exact (goes_advance h).bind fun _ _ => goes_pure rfl

theorem goes_takes {text : String} (h : w.isText text) :
    Goes dialect (takes text) (w :: rest) rest (· = true) :=
  goes_consume (Word.isSome_of_isText h) fun _ => h

theorem goes_takes_other {text : String} (h : w.isText text = false) :
    Goes dialect (takes text) (w :: rest) (w :: rest) (· = false) := by
  change Goes dialect (liftM (Cursor.consume (.text text))) _ _ _
  rw [liftM_consume]
  refine goes_get fun c offers => ?_
  obtain ⟨start, same⟩ := offers.current
  have refused : (Pattern.text text).accepts (w.token start) = false := h
  rw [same, refused, if_neg Bool.false_ne_true]
  exact goes_pure rfl

theorem goes_consumeNext {u : Word} {text : String} (h : w.isSome) (same : u.isText text) :
    Goes dialect (liftM (Cursor.consumeNext (.text text))) (w :: u :: rest) rest (· = true) := by
  rw [liftM_consumeNext]
  refine (goes_next h).bind ?_
  rintro _ ⟨start, rfl⟩
  have accepted : (Pattern.text text).accepts (u.token start) := same
  rw [if_pos accepted]
  exact (goes_advance h).bind fun _ _ => (goes_advance (Word.isSome_of_isText same)).bind
    fun _ _ => goes_pure rfl

theorem goes_discard (h : Goes dialect p words rest good) :
    Goes dialect (discard p) words rest fun _ => True := by
  intro c offers
  obtain ⟨a, d, run, -, left⟩ := h offers
  exact ⟨(), d, discard_ok.mpr ⟨a, run⟩, trivial, left⟩

theorem goes_expect {text : String} (h : w.isText text) :
    Goes dialect (expect text) (w :: rest) rest fun _ => True := by
  intro c offers
  obtain ⟨taken, d, run, rfl, left⟩ := goes_takes h offers
  exact ⟨(), d, expect_ok.mpr run, trivial, left⟩

theorem goes_identifier (h : w.1 = .identifier) :
    Goes dialect identifier (w :: rest) rest (·.name = w.2) := by
  refine goes_current fun start => ?_
  rw [if_pos (show (w.token start).kind = .identifier from h)]
  exact (goes_advance (Word.isSome_of_kind h (by decide))).bind fun _ _ => goes_pure rfl

theorem goes_required {part : Parser (Option α)} {what : Expectation}
    (h : Goes dialect part words rest (Present good)) :
    Goes dialect (required what part) words rest good := by
  intro c offers
  obtain ⟨_, d, run, ⟨a, rfl, isGood⟩, left⟩ := h offers
  exact ⟨a, d, required_ok.mpr run, isGood, left⟩

theorem goes_behind {text : String} (h : w.isText text) (item : Goes dialect p words rest good) :
    Goes dialect (behind text p) (w :: words) rest (Present good) :=
  (goes_takes h).yes (item.bind fun a isGood => goes_pure ⟨a, rfl, isGood⟩)

theorem goes_behind_other {text : String} (h : w.isText text = false) :
    Goes dialect (behind text p) (w :: rest) (w :: rest) (· = none) :=
  (goes_takes_other h).no (goes_pure rfl)

/-- A loop that has another round. -/
theorem goes_many {step : Parser (Option α)} {all : List α → Prop} (shrinks : Shrinks step)
    (first : Goes dialect step words middle (Present good))
    (others : ∀ a, good a → Goes dialect (many step) middle rest fun as => all (a :: as)) :
    Goes dialect (many step) words rest all := by
  intro c offers
  obtain ⟨_, d, run, ⟨a, rfl, isGood⟩, left⟩ := first offers
  obtain ⟨as, e, loop, isAll, further⟩ := others a isGood left
  refine ⟨a :: as, e, ?_, isAll, further⟩
  rw [many_eq shrinks offers.input]
  exact bind_ok.mpr ⟨some a, d, run, bind_ok.mpr ⟨as, e, loop, rfl⟩⟩

/-- A loop that is over. -/
theorem goes_many_end {step : Parser (Option α)} (shrinks : Shrinks step)
    (last : Goes dialect step words rest (· = none)) :
    Goes dialect (many step) words rest (· = []) := by
  intro c offers
  obtain ⟨_, d, run, rfl, left⟩ := last offers
  refine ⟨[], d, ?_, rfl, left⟩
  rw [many_eq shrinks offers.input]
  exact bind_ok.mpr ⟨none, d, run, rfl⟩

theorem exists_head {γ : Type} {wordsOf : γ → List Word} {ends : Word → Prop} {items : List γ}
    (heads : ∀ item ∈ items, ∃ u more, wordsOf item = u :: more ∧ ends u) (last : ends w)
    (rest : List Word) :
    ∃ u more, items.flatMap wordsOf ++ w :: rest = u :: more ∧ ends u := by
  cases items with
  | nil => exact ⟨w, rest, rfl, last⟩
  | cons item items =>
    obtain ⟨u, more, same, isEnd⟩ := heads item List.mem_cons_self
    exact ⟨u, _, by rw [List.flatMap_cons, same]; rfl, isEnd⟩

/-- A loop that has a round for each item. Behind every item, and behind the last, stands a word
that ends it. -/
theorem goes_many_items {γ : Type} {step : Parser (Option α)} {wordsOf : γ → List Word}
    {same : γ → α → Prop} {items : List γ} (ends : Word → Prop) (shrinks : Shrinks step)
    (each : ∀ item ∈ items, ∀ u more, ends u →
      Goes dialect step (wordsOf item ++ u :: more) (u :: more) (Present (same item)))
    (heads : ∀ item ∈ items, ∃ u more, wordsOf item = u :: more ∧ ends u) (last : ends w)
    (ended : Goes dialect step (w :: rest) (w :: rest) (· = none)) :
    Goes dialect (many step) (items.flatMap wordsOf ++ w :: rest) (w :: rest)
      (List.Forall₂ same items) := by
  induction items with
  | nil =>
    refine (goes_many_end shrinks ended).mono ?_
    rintro _ rfl
    exact .nil
  | cons item items ih =>
    have heads := fun other member => heads other (List.mem_cons_of_mem item member)
    have further := ih (fun other member => each other (List.mem_cons_of_mem _ member)) heads
    obtain ⟨u, more, same, isEnd⟩ := exists_head heads last rest
    rw [List.flatMap_cons, List.append_assoc]
    rw [same] at further ⊢
    refine goes_many shrinks (each item List.mem_cons_self u more isEnd) fun a isGood => ?_
    exact further.mono fun _ others => .cons isGood others

theorem goes_grow {step : α → Parser (Option α)} {start : α} {better : α → Prop}
    (shrinks : ∀ a, Shrinks (step a))
    (first : Goes dialect (step start) words middle (Present good))
    (others : ∀ a, good a → Goes dialect (grow step a) middle rest better) :
    Goes dialect (grow step start) words rest better := by
  intro c offers
  obtain ⟨_, d, run, ⟨a, rfl, isGood⟩, left⟩ := first offers
  obtain ⟨b, e, other, isBetter, further⟩ := others a isGood left
  refine ⟨b, e, ?_, isBetter, further⟩
  rw [grow_eq shrinks offers.input]
  exact bind_ok.mpr ⟨some a, d, run, other⟩

theorem goes_grow_end {step : α → Parser (Option α)} {start : α} (shrinks : ∀ a, Shrinks (step a))
    (h : good start) (last : Goes dialect (step start) words rest (· = none)) :
    Goes dialect (grow step start) words rest good := by
  intro c offers
  obtain ⟨_, d, run, rfl, left⟩ := last offers
  refine ⟨start, d, ?_, h, left⟩
  rw [grow_eq shrinks offers.input]
  exact bind_ok.mpr ⟨none, d, run, rfl⟩

end Parser
end LuaFrontend
