import LuaFrontend.Proofs.TokenReading

set_option autoImplicit false

namespace LuaFrontend

open Outcome (IsInput)

/-- The limit of nesting was reached. -/
def Error.IsTooDeep : Error → Prop
  | .lexical _ => False
  | .grammatical e => e.fault = .nestingTooDeep

/-- At most this many tokens and faulty lexemes are before the end token. -/
structure Cursor.HasAtMost (room : Nat) (c : Cursor) : Prop where
  input : IsInput c.upcoming
  length : c.upcoming.length ≤ room + 1

theorem Cursor.HasAtMost.record {room : Nat} {c : Cursor} (h : c.HasAtMost room) (e : Event) :
    (c.record e).HasAtMost room :=
  ⟨h.input, h.length⟩

theorem Cursor.HasAtMost.of_passes {room : Nat} {c d : Cursor} {tokens : List Token}
    (h : c.HasAtMost room) (g : c.Passes tokens d) : d.HasAtMost room := by
  refine ⟨g.input h.input, ?_⟩
  have length := h.length
  rw [g.upcoming, List.length_append] at length
  omega

theorem Cursor.HasAtMost.of_passes_one {room : Nat} {c d : Cursor} {t : Token}
    (h : c.HasAtMost room) (g : c.Passes [t] d) : ∃ less < room, d.HasAtMost less := by
  have length := h.length
  rw [g.upcoming, List.length_append, List.length_map, List.length_singleton] at length
  have positive := Parser.length_upcoming_pos d
  refine ⟨d.upcoming.length - 1, by omega, g.input h.input, by omega⟩

namespace Parser

variable {α β : Type}

/-- No result of reaching the limit, and no more before the cursor than there was. -/
def Stays (room : Nat) : EStateM.Result Error Cursor α → Prop
  | .ok _ d => d.HasAtMost room
  | .error e _ => ¬ e.IsTooDeep

/-- Where such a token is current and no more than this is before the end, the limit is not
reached. -/
def FitsFrom (start : Token → Prop) (room : Nat) (p : Parser α) : Prop :=
  ∀ ⦃c⦄, c.HasAtMost room → start c.current → Stays room (p c)

/-- Where no more than this is before the end, the limit is not reached. -/
abbrev Fits (room : Nat) (p : Parser α) : Prop := FitsFrom (fun _ => True) room p

/-- It is not the end of the text. -/
def Inside (t : Token) : Prop := t.isEnd = false

variable {start : Token → Prop} {room : Nat} {p : Parser α}

theorem Fits.from (h : Fits room p) : FitsFrom start room p := fun _ fits _ => h fits trivial

theorem FitsFrom.at {t : Token} (h : FitsFrom start room p) (holds : start t) :
    FitsFrom (· = t) room p := by
  rintro c fits rfl
  exact h fits holds

theorem Stays.mono {less : Nat} {x : EStateM.Result Error Cursor α} (h : Stays less x)
    (le : less ≤ room) : Stays room x := by
  cases x with
  | ok a d => exact ⟨h.input, h.length.trans (by omega)⟩
  | error e d => exact h

theorem fits_pure (a : α) : FitsFrom start room (pure a) := fun _ fits _ => fits

theorem FitsFrom.bind {f : α → Parser β} (h : FitsFrom start room p) (next : ∀ a, Fits room (f a)) :
    FitsFrom start room (p >>= f) := by
  intro c fits holds
  have first := h fits holds
  simp only [Bind.bind, EStateM.bind]
  cases run : p c with
  | ok a d =>
    rw [run] at first
    exact next a first trivial
  | error e d =>
    rw [run] at first
    exact first

theorem fits_ite {q : Parser α} {condition : Prop} [Decidable condition]
    (yes : FitsFrom start room p) (no : FitsFrom start room q) :
    FitsFrom start room (if condition then p else q) := by
  split
  · exact yes
  · exact no

theorem fits_production (production : Production) (h : FitsFrom start room p) :
    FitsFrom start room (Parser.production production p) := by
  intro c fits holds
  have result := h (fits.record (.enter production)) holds
  unfold Parser.production
  cases run : p (c.record (.enter production)) with
  | ok a d =>
    rw [run] at result
    exact Cursor.HasAtMost.record result (.exit production)
  | error e d =>
    rw [run] at result
    exact result

theorem fits_get_bind {f : Cursor → Parser β}
    (h : ∀ c : Cursor, start c.current → FitsFrom (· = c.current) room (f c)) :
    FitsFrom start room (get >>= f) :=
  fun c fits holds => h c holds fits rfl

theorem fits_current_bind {f : Token → Parser β}
    (h : ∀ t, start t → FitsFrom (· = t) room (f t)) : FitsFrom start room (current >>= f) :=
  fun c fits holds => h c.current holds fits rfl

theorem fits_expected_bind (what : Expectation) (f : α → Parser β) :
    FitsFrom start room (expected what >>= f) :=
  fun _ _ _ => nofun

theorem fits_expected (what : Expectation) : FitsFrom start room (expected what : Parser α) :=
  fun _ _ _ => nofun

theorem fits_next : FitsFrom start room (liftM Cursor.next : Parser Token) := by
  intro c fits _
  change Stays room (act Cursor.next c)
  unfold act
  cases run : Cursor.next c with
  | ok t d => exact fits.of_passes (Cursor.passes_of_next run)
  | error e d => exact id

theorem fits_unexpected : FitsFrom start room (unexpected : Parser α) :=
  fits_get_bind fun _ _ => fits_next.bind fun _ _ _ _ => nofun

/-- Moving on from a token leaves less. -/
theorem fits_advance_bind {f : Unit → Parser β} (next : ∀ less < room, Fits less (f ())) :
    FitsFrom Inside room (liftM Cursor.advance >>= f) := by
  intro c fits inside
  change Stays room ((act Cursor.advance >>= f) c)
  simp only [Bind.bind, EStateM.bind, act]
  cases run : Cursor.advance c with
  | ok u d =>
    have passes := Cursor.passes_of_advance run fits.input inside
    obtain ⟨less, small, fewer⟩ := fits.of_passes_one passes
    exact (next less small fewer trivial).mono small.le
  | error e d => exact id

theorem fits_advance : FitsFrom start room (liftM Cursor.advance : Parser Unit) := by
  intro c fits _
  change Stays room (act Cursor.advance c)
  unfold act
  rcases Cursor.advance_cases c with ⟨d, run, passes, -⟩ | ⟨t, rest, d, run, passes, -⟩ |
    ⟨e, rest, d, run, -⟩
  · rw [run]
    exact fits.of_passes passes
  · rw [run]
    exact fits.of_passes passes
  · rw [run]
    exact id

/-- Taking a token leaves less; otherwise the cursor stays where it is. -/
theorem fits_consume_bind {pattern : Pattern} {f : Bool → Parser β}
    (inside : ∀ t, pattern.accepts t → Inside t) (yes : ∀ less < room, Fits less (f true))
    (no : FitsFrom start room (f false)) :
    FitsFrom start room (liftM (Cursor.consume pattern) >>= f) := by
  rw [liftM_consume]
  simp only [bind_assoc]
  refine fits_get_bind fun c holds => ?_
  split
  · next accepted =>
    simp only [bind_assoc, pure_bind]
    exact (fits_advance_bind yes).at (inside _ accepted)
  · rw [pure_bind]
    exact no.at holds

theorem fits_takes_bind {text : String} {f : Bool → Parser β}
    (yes : ∀ less < room, Fits less (f true)) (no : FitsFrom start room (f false)) :
    FitsFrom start room (takes text >>= f) :=
  fits_consume_bind (fun _ => isEnd_of_accepts) yes no

theorem fits_takes (text : String) : FitsFrom start room (takes text) := by
  have alone : FitsFrom start room (takes text >>= pure) :=
    fits_takes_bind (fun _ _ => fits_pure true) (fits_pure false)
  rwa [bind_pure] at alone

theorem fits_expect_bind {text : String} {f : Unit → Parser β}
    (next : ∀ less < room, Fits less (f ())) : FitsFrom start room (expect text >>= f) := by
  rw [expect, bind_assoc]
  refine fits_takes_bind (fun less small => ?_) ?_
  · exact (fits_pure ()).bind fun _ => next less small
  · change FitsFrom start room (expected (.text text) >>= f)
    exact fits_expected_bind _ _

theorem fits_identifier : FitsFrom start room identifier := by
  refine fits_current_bind fun t _ => ?_
  split
  · exact fits_advance.bind fun _ => fits_pure _
  · exact fits_expected _

theorem fits_required (what : Expectation) {p : Parser (Option α)} (h : FitsFrom start room p) :
    FitsFrom start room (required what p) := by
  refine h.bind fun result => ?_
  cases result with
  | some a => exact fits_pure a
  | none => exact fits_expected what

theorem fits_behind {text : String} (h : ∀ less < room, Fits less p) :
    FitsFrom start room (behind text p) :=
  fits_takes_bind (fun less small => (h less small).bind fun _ => fits_pure _) (fits_pure none)

theorem fits_many {step : Parser (Option α)} (h : Fits room step) : Fits room (many step) := by
  have upTo {γ : Type} (bound : List γ) : Fits room (manyUpTo step bound) := by
    induction bound with
    | nil => exact fits_pure []
    | cons _ bound ih =>
      refine h.bind fun result => ?_
      cases result with
      | some a => exact ih.bind fun _ => fits_pure _
      | none => exact fits_pure []
  exact fits_get_bind fun c _ => (upTo c.ahead).at trivial

theorem fits_grow {step : α → Parser (Option α)} (h : ∀ a, Fits room (step a)) (a : α) :
    Fits room (grow step a) := by
  have upTo {γ : Type} (bound : List γ) (a : α) : Fits room (growUpTo step bound a) := by
    induction bound generalizing a with
    | nil => exact fits_pure a
    | cons _ bound ih =>
      refine (h a).bind fun result => ?_
      cases result with
      | some b => exact ih b
      | none => exact fits_pure a
  exact fits_get_bind fun c _ => (upTo c.ahead a).at trivial

theorem fits_commaSeparated (h : ∀ less ≤ room, Fits less p) : Fits room (commaSeparated p) :=
  (h room le_rfl).bind fun _ =>
    (fits_many (fits_behind fun less small => h less small.le)).bind fun _ => fits_pure _

theorem fits_discard (h : FitsFrom start room p) : FitsFrom start room (discard p) := by
  intro c fits holds
  have result := h fits holds
  change Stays room (EStateM.map _ p c)
  unfold EStateM.map
  cases run : p c with
  | ok a d =>
    rw [run] at result
    exact result
  | error e d =>
    rw [run] at result
    exact result

theorem fits_nextMatchesAny (patterns : List Pattern) :
    FitsFrom start room (liftM (Cursor.nextMatchesAny patterns) : Parser Bool) := by
  rw [liftM_nextMatchesAny]
  exact fits_next.bind fun _ => fits_pure _

theorem fits_consumeNext (pattern : Pattern) :
    FitsFrom start room (liftM (Cursor.consumeNext pattern) : Parser Bool) := by
  rw [liftM_consumeNext]
  refine fits_next.bind fun t => fits_ite ?_ (fits_pure false)
  exact fits_advance.bind fun _ => fits_advance.bind fun _ => fits_pure true

end Parser
end LuaFrontend
