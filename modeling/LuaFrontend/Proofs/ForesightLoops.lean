import LuaFrontend.Proofs.ForesightSteps

set_option autoImplicit false

namespace LuaFrontend

open Outcome (IsInput)

namespace Parser

variable {α β : Type} {dialect : Dialect} {viable : Prop} {start : Cursor → Prop} {p q : Parser α}
  {k m : Conduct α}

/-- Induction on how much is before the first cursor, for parsers with a state. -/
theorem foresees_by_length {σ : Type} {p q : σ → Parser α} (start : σ → Cursor → Prop)
    (round : ∀ n, (∀ s, Foresees dialect viable (fun c => c.upcoming.length ≤ n ∧ start s c)
      (p s) (q s) k) → ∀ s, Foresees dialect viable
        (fun c => c.upcoming.length ≤ n + 1 ∧ start s c) (p s) (q s) k) (s : σ) :
    Foresees dialect viable (start s) (p s) (q s) k := by
  have bounded (n : Nat) : ∀ s, Foresees dialect viable
      (fun c => c.upcoming.length ≤ n ∧ start s c) (p s) (q s) k := by
    induction n with
    | zero =>
      exact fun s => foresees_nowhere fun c begins =>
        Nat.not_lt_of_le begins.1 (length_upcoming_pos c)
    | succ n ih => exact round n ih
  exact ⟨fun c _ _ legible begins => (bounded c.upcoming.length s).ok legible ⟨le_rfl, begins⟩,
    fun c _ _ legible begins => (bounded c.upcoming.length s).error legible ⟨le_rfl, begins⟩⟩

variable {step step' : Parser (Option α)} {l : Conduct (Option α)}

/-- What a loop does behind a round. -/
def afterRound (step : Parser (Option α)) : Option α → Parser (List α)
  | some a => many step >>= fun others => pure (a :: others)
  | none => pure []

theorem goes_afterRound {v : Word} {rest : List Word} (shrinks : Shrinks step)
    (ended : Goes dialect step (v :: rest) (v :: rest) (· = none)) (result : Option α) :
    Goes dialect (afterRound step result) (v :: rest) (v :: rest) fun _ => True := by
  cases result with
  | some a => exact (goes_many_end shrinks ended).bind fun _ _ => goes_pure trivial
  | none => exact goes_pure trivial

/-- The loop ends before these words, and where it has ended it is foreseen if its rounds are. -/
theorem foretells_many (ends : Word → Prop) (h : Foresees dialect viable anywhere step step' l)
    (after : ∀ w, ends w → l.after w) (instead : ∀ w, ends w → l.instead w)
    (shrinks : Shrinks step) (shrinks' : Shrinks step')
    (ended : viable → ∀ v rest, ends v → Goes dialect step' (v :: rest) (v :: rest) (· = none)) :
    Foretells dialect viable (many step) (many step') { after := ends, instead := ends } where
  foresees := by
    have continues (v : viable) (those : Option α → Prop) : Continues dialect (afterRound step')
        those [] l.after (l.thenOf { after := ends, instead := ends }) :=
      ⟨.nil, fun w stops => after w stops.1, fun a _ w rest stops =>
        goes_afterRound shrinks' (ended v w rest stops.1) a⟩
    refine foresees_by_length (p := fun _ : Unit => many step) (q := fun _ => many step')
      (fun _ => anywhere) (fun n ih _ => ?_) ()
    refine Foresees.congr (((h.from fun _ _ => trivial).bind_of (f := afterRound step)
      (fun a => ?_) (fun v _ _ _ _ _ _ _ _ _ took some => took.completes_none some (continues v _))
      fun v => ⟨[], continues v _⟩).mono ⟨fun w stops => ⟨stops, .inr ⟨after w stops, stops⟩⟩,
        fun w stops => .inr (.inr (.inr ⟨instead w stops, stops⟩)), fun _ => id, False.elim,
        fun _ => False.elim⟩)
      (fun c input _ => many_eq shrinks input) fun c input _ => many_eq shrinks' input
    cases a with
    | none => exact foresees_pure [] id fun _ _ => id
    | some a =>
      refine ((ih ()).from ?_).then_pure (fun _ => True) fun _ _ => trivial
      rintro e ⟨c, input, ⟨le, -⟩, run⟩
      have less := (shrinks input run).2
      exact ⟨by omega, trivial⟩
  feeds v := ⟨.nil, fun w rest stops =>
    (goes_many_end shrinks' (ended v w rest stops)).mono fun _ _ => trivial⟩

/-- What growing does behind a step. -/
def afterStep (step : α → Parser (Option α)) (start : α) : Option α → Parser α
  | some a => grow step a
  | none => pure start

variable {build build' : α → Parser (Option α)} {ends : Word → Prop} {good fine : α → Prop}

/-- Growing is foreseen if its steps are, and if words are known behind each step that built
something, and behind the completion of a step. -/
theorem foresees_grow (h : ∀ a, Foresees dialect viable anywhere (build a) (build' a) l)
    (after : ∀ w, ends w → l.after w) (instead : ∀ w, ends w → l.instead w)
    (shrinks : ∀ a, Shrinks (build a)) (shrinks' : ∀ a, Shrinks (build' a))
    (none : ∀ a, NoneTakesNone (build a)) (some : ∀ r, l.good r → Present fine r)
    (reached : viable → ∀ a, ∃ words,
      Continues dialect (grow build') (· = a) words l.after { after := ends, good := good })
    (completed : viable → ∃ words,
      Continues dialect (grow build') fine words l.after { after := ends, good := good })
    (a : α) :
    Foresees dialect viable anywhere (grow build a) (grow build' a)
      { after := ends, instead := ends, good := good } := by
  let grown : Conduct α := { after := ends, instead := ends, good := good }
  refine foresees_by_length (fun _ => anywhere) (fun n ih a => ?_) a
  have next (r : Option α) : Foresees dialect viable
      (fun e => ∃ c, IsInput c.upcoming ∧ (c.upcoming.length ≤ n + 1 ∧ True) ∧ build a c = .ok r e)
      (afterStep build a r) (afterStep build' a r) grown := by
    cases r with
    | none => exact foresees_pure a id fun _ _ => id
    | some b =>
      refine (ih b).from ?_
      rintro e ⟨c, input, ⟨le, -⟩, run⟩
      have less := (shrinks a input run).2
      exact ⟨by omega, trivial⟩
  have round : Foresees dialect viable (fun c => c.upcoming.length ≤ n + 1 ∧ True)
      (build a >>= afterStep build a) (build' a >>= afterStep build' a) (l.thenOf grown) := by
    refine ((h a).from fun _ _ => trivial).bind_of next
      (fun v c r e x g taken legible run _ took more => ?_) fun v => ?_
    · cases r with
      | none => exact absurd (took.nil_of_upcoming (none a legible.input run)) more
      | some b =>
        obtain ⟨words, continues⟩ := reached v b
        refine took.completes_none more
          ⟨continues.proper, fun w stops => continues.head w stops.1, ?_⟩
        rintro _ rfl w rest stops
        exact continues.goes b rfl w rest stops.1
    · obtain ⟨words, continues⟩ := completed v
      refine ⟨words, continues.proper, fun w stops => continues.head w stops.1, ?_⟩
      intro r isGood w rest stops
      obtain ⟨b, rfl, isFine⟩ := some r isGood
      exact continues.goes b isFine w rest stops.1
  exact (round.congr (fun c input _ => grow_eq shrinks input)
    fun c input _ => grow_eq shrinks' input).mono ⟨fun w stops => ⟨stops, .inr ⟨after w stops, stops⟩⟩,
      fun w stops => .inr (.inr (.inr ⟨instead w stops, stops⟩)), fun _ => id, False.elim,
      fun _ => False.elim⟩

theorem taken_ne_nil_of_shrinks {c e : Cursor} {r : α} {taken : List Token}
    (shrinks : Shrinks step) (input : IsInput c.upcoming) (run : step c = .ok (some r) e)
    (view : c.upcoming = taken.map .ok ++ e.upcoming) : taken ≠ [] := by
  rintro rfl
  exact absurd (shrinks input run).2 (by rw [view]; simp)

theorem exists_first (others : List Token) (t : Token) (rest : List Outcome) :
    ∃ u behind, others.map .ok ++ .ok t :: rest = (.ok u :: behind : List Outcome) := by
  cases others with
  | nil => exact ⟨t, rest, rfl⟩
  | cons u others => exact ⟨u, _, rfl⟩

/-- What has grown goes on growing before every token, if nothing behind a step matters to it. -/
theorem grow_goes_on (h : ∀ a, Foresees dialect viable anywhere (build a) (build' a) l)
    (after : ∀ w, l.after w) (shrinks : ∀ a, Shrinks (build a)) (shrinks' : ∀ a, Shrinks (build' a))
    (none : ∀ a, NoneTakesNone (build a)) {a b : α} {c e : Cursor} (legible : c.IsLegible dialect)
    (run : grow build a c = .ok b e) :
    ∃ taken : List Token, c.upcoming = taken.map .ok ++ e.upcoming ∧
      ∀ ⦃d t rest⦄, d.Faces dialect (taken.map .ok ++ .ok t :: rest) →
        ∃ g, grow build' a d = grow build' b g ∧ g.Faces dialect (.ok t :: rest) := by
  induction size : c.upcoming.length using Nat.strong_induction_on generalizing a c with
  | _ n ih =>
    rw [grow_eq shrinks legible.input] at run
    obtain ⟨r, g, first, run⟩ := bind_ok.mp run
    obtain ⟨taken, took⟩ := (h a).ok legible trivial first
    cases r with
    | none =>
      obtain ⟨rfl, rfl⟩ := pure_ok.mp run
      refine ⟨[], (none _ legible.input first).symm, fun d t rest faces => ⟨d, rfl, faces⟩⟩
    | some a' =>
      have less := (shrinks a legible.input first).2
      have more := taken_ne_nil_of_shrinks (shrinks a) legible.input first took.upcoming
      obtain ⟨others, view, goes⟩ :=
        ih _ (size ▸ less) (legible.behind took.upcoming took.dialect_eq) run rfl
      refine ⟨taken ++ others, ?_, fun d t rest faces => ?_⟩
      · rw [took.upcoming, view, List.map_append, List.append_assoc]
      · rw [List.map_append, List.append_assoc] at faces
        obtain ⟨u, behind, split⟩ := exists_first others t rest
        have input := faces.input
        rw [split] at faces
        obtain ⟨i, same, left⟩ := took.yields faces
          (.inr ⟨fun empty => absurd empty more, fun _ => after _⟩)
        obtain ⟨j, again, last⟩ := goes (split ▸ left)
        refine ⟨j, ?_, last⟩
        rw [grow_eq shrinks' input, bind_eq_of_ok same]
        exact again

/-- What grows on a part that may be absent. -/
def growing (step : α → Parser (Option α)) : Option α → Parser (Option α)
  | some a => grow step a >>= fun b => pure (some b)
  | none => pure none

variable {first first' : Parser (Option α)} {words : List Word}

/-- A part with what grows on it. Behind a part that is there, words are known that lead to the
end. -/
theorem foresees_growing {k : Conduct (Option α)} (h : Foresees dialect viable anywhere first first' k)
    (next : ∀ a, Foresees dialect viable anywhere (grow build a) (grow build' a)
      { after := ends, instead := ends, good := good })
    (after : ∀ w, ends w → k.after w) (none : NoneTakesNone first)
    (some : ∀ r, k.good r → Present (fun _ => True) r) (proper : Proper dialect words)
    (head : ∀ w, ends w → k.after (words.headD w))
    (goes : viable → ∀ a w rest, ends w →
      Goes dialect (grow build' a) (words ++ w :: rest) (w :: rest) good) :
    Foresees dialect viable anywhere (first >>= growing build) (first' >>= growing build')
      { after := ends, instead := fun w => k.instead w ∧ ends w, good := Present good,
        enters := k.enters } := by
  have rest (r : Option α) : Foresees dialect viable anywhere (growing build r) (growing build' r)
      { after := ends, instead := ends, good := Present good } := by
    cases r with
    | none => exact foresees_pure _ id fun _ _ => id
    | some a => exact (next a).then_pure _ fun b isGood => ⟨b, rfl, isGood⟩
  have continues (can : viable) (a : α) (w : Word) (others : List Word) (stops : ends w) :
      Goes dialect (growing build' (.some a)) (words ++ w :: others) (w :: others) (Present good) :=
    (goes can a w others stops).bind fun b isGood => goes_pure ⟨b, rfl, isGood⟩
  refine (h.bind_of (fun r => (rest r).from fun _ _ => trivial)
    (fun can c r e x g taken legible run _ took more => took.completes_none more
      ⟨proper, fun w stops => head w stops.1, ?_⟩)
    fun can => ⟨words, proper, fun w stops => head w stops.1, ?_⟩).mono
      ⟨fun w stops => ⟨stops, .inr ⟨after w stops, stops⟩⟩, fun w stops => .inr (.inr (.inr stops)),
        fun _ => id, False.elim, fun _ => id⟩
  · rintro s rfl w others stops
    cases s with
    | none => exact absurd (took.nil_of_upcoming (none legible.input run)) more
    | some a => exact continues can a w others stops.1
  · intro r isGood w others stops
    obtain ⟨a, rfl, -⟩ := some r isGood
    exact continues can a w others stops.1

/-- Items with commas between them. -/
theorem foretells_commaSeparated [Nonempty α] (h : Foretells dialect viable p q k) (takes : k.takes)
    (shrinks : Shrinks (behind "," p)) (shrinks' : Shrinks (behind "," q)) :
    Foretells dialect viable (commaSeparated p) (commaSeparated q)
      { after := fun w => w.isText "," = false ∧ k.after w, takes := True, enters := k.enters,
        words := k.words } := by
  have others : Foretells dialect viable (afterCommas p) (afterCommas q)
      { after := fun w => w.isText "," = false ∧ k.after w,
        instead := fun w => w.isText "," = false ∧ k.after w } :=
    foretells_many _ (foretells_behind "," h).foresees (fun w ends => ⟨ends.1, ends.2, .inl takes⟩)
      (fun w ends => ends.1) shrinks shrinks' fun _ v rest ends => goes_behind_other ends.1
  refine (h.bind (fun a => others.then_pure (f := fun as => a :: as) (fun _ => True)
    fun _ _ => trivial) fun w stops => stops.1.2).mono ⟨fun w stops => ⟨stops, .inr ⟨stops.2, stops⟩⟩,
      fun _ _ => .inl (.inl takes), fun _ => id, fun _ => .inl takes, fun _ => id⟩
      (List.append_nil _).symm

end Parser
end LuaFrontend
