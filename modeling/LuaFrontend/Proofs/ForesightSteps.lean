import LuaFrontend.Proofs.Foresight
import LuaFrontend.Proofs.TokenReading

set_option autoImplicit false

namespace LuaFrontend

open Outcome (IsInput)

/-- The token behind the current one can be read, and it is accepted. -/
def Cursor.NextIs (pattern : Pattern) (c : Cursor) : Prop :=
  ∃ u rest, c.upcoming = .ok c.current :: .ok u :: rest ∧ pattern.accepts u

namespace Conduct

/-- Something up to its own last word. -/
def enclosed {α : Type} (words : List Word) (good : α → Prop := fun _ => True) : Conduct α where
  good := good
  takes := True
  words := words

/-- Something behind these words. -/
def behind {α : Type} (words : List Word) (l : Conduct α) : Conduct α where
  after w := l.after w ∧ (l.takes ∨ l.instead w)
  good := l.good
  takes := True
  words := words ++ l.words

end Conduct

namespace Parser

variable {α β : Type} {dialect : Dialect} {viable : Prop} {start : Cursor → Prop} {p q : Parser α}
  {k m : Conduct α}

theorem Foretells.mono (h : Foretells dialect viable p q k) (covers : k.Covers m)
    (words : m.words = k.words) : Foretells dialect viable p q m where
  foresees := h.foresees.mono covers
  feeds v := by
    refine ⟨words ▸ (h.feeds v).proper, fun w rest stops => ?_⟩
    rw [words]
    exact ((h.feeds v).goes w rest (covers.after w stops)).mono covers.good

section Words

variable [Nonempty α] {f f' : α → Parser β} {l : Conduct β} {words : List Word}

theorem Foretells.behind (h : Foretells dialect viable p q (.enclosed words))
    (next : ∀ a, Foretells dialect viable (f a) (f' a) l) :
    Foretells dialect viable (p >>= f) (q >>= f') (l.behind words) :=
  (h.bind next fun _ _ => trivial).mono
    ⟨fun _ stops => ⟨stops.1, stops.2.imp_right fun starts => ⟨trivial, starts⟩⟩,
      fun _ _ => .inl (.inl trivial), fun _ => id, fun _ => .inl trivial, fun _ => False.elim⟩ rfl

theorem Foretells.then_enclosed {good : β → Prop} (h : Foretells dialect viable p q k)
    (next : ∀ a, Foretells dialect viable (f a) (f' a) (.enclosed words good))
    (head : ∀ v, k.after (words.headD v)) :
    Foretells dialect viable (p >>= f) (q >>= f')
      (.enclosed (k.words ++ words) good) :=
  (h.bind next fun v _ => head v).mono
    ⟨fun _ _ => ⟨trivial, .inl trivial⟩, fun _ _ => .inl (.inr trivial), fun _ => id,
      fun _ => .inr trivial, fun _ => False.elim⟩ rfl

end Words

theorem foresees_pure (a : α) (takes : ¬ k.takes) (enters : ∀ c, start c → ¬ k.enters c.current) :
    Foresees dialect viable start (pure a) (pure a) k where
  ok c b e legible begins run := by
    obtain ⟨rfl, rfl⟩ := pure_ok.mp run
    refine ⟨[], rfl, legible.dialect_eq, ?_, fun d t rest faces _ => ⟨d, rfl, faces⟩⟩
    exact fun some => absurd some (not_or.mpr ⟨takes, enters _ begins⟩)
  error _ _ _ _ _ run := nomatch run

theorem foretells_pure {a : α} {good : α → Prop} (h : good a) :
    Foretells dialect viable (pure a) (pure a) { good := good } where
  foresees := foresees_pure a id fun _ _ => id
  feeds _ := ⟨.nil, fun _ _ _ => goes_pure h⟩

theorem Completes.production {production : Production} {taken : List Token}
    (h : Completes dialect q taken k) :
    Completes dialect (Parser.production production q) taken k := by
  obtain ⟨words, proper, goes⟩ := h
  refine ⟨words, proper, fun d tokens v rest stops faces spelled => ?_⟩
  obtain ⟨a, e, run, isGood, left⟩ := goes stops (faces.record (.enter production)) spelled
  exact ⟨a, _, production_ok.mpr ⟨e, run, rfl⟩, isGood, left.record _⟩

theorem production_error {production : Production} {c e : Cursor} {x : Error}
    (run : Parser.production production p c = .error x e) :
    ∃ i, p (c.record (.enter production)) = .error x i := by
  unfold Parser.production at run
  split at run
  · cases run
  · next y i body =>
    cases run
    exact ⟨i, body⟩

theorem foresees_production (production : Production) (h : Foresees dialect viable start p q k)
    (stays : ∀ c e, start c → start (c.record e)) :
    Foresees dialect viable start (Parser.production production p)
      (Parser.production production q) k where
  ok := by
    intro c a e legible begins run
    obtain ⟨i, body, rfl⟩ := production_ok.mp run
    obtain ⟨taken, took⟩ := h.ok (legible.record _) (stays _ _ begins) body
    refine ⟨taken, took.upcoming, took.dialect_eq, took.some, fun d t rest faces next => ?_⟩
    obtain ⟨j, same, left⟩ := took.yields (faces.record (.enter production)) next
    exact ⟨_, production_ok.mpr ⟨j, same, rfl⟩, left.record _⟩
  error := by
    intro c x e legible begins run
    obtain ⟨i, body⟩ := production_error run
    obtain ⟨taken, t, rest, stuck⟩ := h.error (legible.record _) (stays _ _ begins) body
    refine ⟨taken, t, rest, stuck.upcoming, stuck.same, stuck.some, ?_, fun v deep some =>
      (stuck.completes v deep some).production⟩
    intro v d other faces alike
    obtain ⟨y, j, same, repeats⟩ := stuck.refuses v (faces.record (.enter production)) alike
    obtain ⟨i, same⟩ := error_production same
    exact ⟨y, i, same, repeats⟩

theorem foretells_production (production : Production) (h : Foretells dialect viable p q k) :
    Foretells dialect viable (Parser.production production p) (Parser.production production q) k where
  foresees := foresees_production production h.foresees fun _ _ _ => trivial
  feeds v := ⟨(h.feeds v).proper, fun w rest stops =>
    goes_production ((h.feeds v).goes w rest stops)⟩

theorem report_of_other {fault : SyntaxFault} (h : ∀ kind text, fault ≠ .unexpected kind text)
    (t : Token) (rest : List Outcome) :
    fault.report t rest = .grammatical ⟨fault, t.start, t.near⟩ := by
  cases fault with
  | unexpected kind text => exact absurd rfl (h kind text)
  | expected what => rcases rest with - | ⟨- | -, -⟩ <;> rfl
  | nestingTooDeep => rcases rest with - | ⟨- | -, -⟩ <;> rfl

theorem foresees_failHere {fault : SyntaxFault} (h : ∀ kind text, fault ≠ .unexpected kind text)
    (enters : ∀ c, start c → k.enters c.current → fault = .nestingTooDeep) :
    Foresees dialect viable start (failHere fault : Parser α) (failHere fault) k where
  ok _ _ _ _ _ run := absurd run not_failHere_ok
  error c x e legible begins run := by
    obtain rfl : (⟨fault, c.current.start, c.current.near⟩ : SyntaxError) = x := by
      cases run
      rfl
    refine ⟨[], c.current, _, rfl, (report_of_other h _ _).symm, fun enters' _ => enters c begins enters',
      fun _ d other faces _ => ?_, fun _ _ some => absurd rfl some⟩
    refine ⟨_, d, rfl, .inl ?_⟩
    rw [report_of_other h, faces.current]

theorem foresees_expected (what : Expectation) (enters : ∀ c, start c → ¬ k.enters c.current) :
    Foresees dialect viable start (expected what : Parser α) (expected what) k :=
  foresees_failHere (fun _ _ => nofun) fun c begins enters' => absurd enters' (enters c begins)

theorem foresees_tooDeep :
    Foresees dialect viable start (failHere .nestingTooDeep : Parser α) (failHere .nestingTooDeep)
      k :=
  foresees_failHere (fun _ _ => nofun) fun _ _ _ => rfl

theorem liftM_of_error {action : Cursor.Action α} {c e : Cursor} {f : LexError}
    (run : action c = .error f e) : (liftM action : Parser α) c = .error (.lexical f) e := by
  change act action c = _
  rw [act, run]

/-- What is said of the current token if it cannot stand there. -/
theorem unexpected_eq (α : Type) {c : Cursor} {rest : List Outcome}
    (view : c.upcoming = .ok c.current :: rest) :
    ∃ e, (unexpected : Parser α) c = .error
      ((SyntaxFault.unexpected c.current.kind c.current.text).report c.current rest) e := by
  rw [unexpected, get_bind]
  rcases rest with - | ⟨f | following, rest⟩
  · obtain ⟨e, looked, -⟩ := Cursor.next_of_end view
    rw [bind_eq_of_ok (liftM_ok.mpr looked)]
    exact ⟨e, rfl⟩
  · obtain ⟨e, looked⟩ := Cursor.next_of_error view
    rw [bind_eq_of_error (liftM_of_error looked)]
    exact ⟨e, rfl⟩
  · obtain ⟨e, looked, -⟩ := Cursor.next_of_token view
    rw [bind_eq_of_ok (liftM_ok.mpr looked)]
    exact ⟨e, rfl⟩

theorem fault_of_report {fault : SyntaxFault} {t : Token} {rest : List Outcome} {x : SyntaxError}
    (h : .grammatical x = fault.report t rest) : x.fault = fault := by
  unfold SyntaxFault.report at h
  repeat' split at h
  all_goals
    cases h
    try rfl

theorem foresees_unexpected (enters : ∀ c, start c → ¬ k.enters c.current) :
    Foresees dialect viable start (unexpected : Parser α) unexpected k where
  ok _ _ _ _ _ run := absurd run not_unexpected_ok
  error c x e legible begins run := by
    obtain ⟨i, same⟩ := unexpected_eq α (c := c) rfl
    rw [run] at same
    obtain ⟨same, -⟩ := EStateM.Result.error.inj same
    obtain fault := fault_of_report same
    refine ⟨[], c.current, _, rfl, fault ▸ same, fun enters' _ => absurd enters' (enters c begins),
      fun _ d other faces _ => ?_, fun _ _ some => absurd rfl some⟩
    obtain ⟨j, again⟩ := unexpected_eq α (c := d) (faces.current ▸ faces.upcoming)
    exact ⟨_, j, again, .inl (by rw [fault, faces.current])⟩

/-- At a token that is not the last one. -/
abbrev inside (c : Cursor) : Prop := c.current.isEnd = false

/-- Some name. -/
def someName : Word := (.identifier, "x")

theorem isProper_someName : someName.IsProper dialect :=
  isProper_letters rfl (by decide) rfl

/-- Behind a token that is passed another one stands. -/
theorem advance_of_faces {d : Cursor} {u t : Token} {rest : List Outcome}
    (faces : d.Faces dialect (.ok u :: .ok t :: rest)) :
    ∃ e, (liftM Cursor.advance : Parser Unit) d = .ok () e ∧
      e.Faces dialect (.ok t :: rest) := by
  obtain ⟨e, run, passes⟩ := Cursor.advance_of_token (faces.current ▸ faces.upcoming)
  exact ⟨e, liftM_ok.mpr run, faces.of_passes_one passes⟩

theorem not_liftM_grammatical {action : Cursor.Action α} {c e : Cursor} {x : SyntaxError} :
    (liftM action : Parser α) c ≠ .error (.grammatical x) e := by
  change act action c ≠ _
  unfold act
  split <;> nofun

/-- A token is taken, or a faulty lexeme is met. -/
theorem foresees_advance (k : Conduct Unit) :
    Foresees dialect viable inside (liftM Cursor.advance) (liftM Cursor.advance) k where
  ok c u e legible more run := by
    have passes := Cursor.passes_of_advance (liftM_ok.mp run) legible.input more
    exact ⟨[c.current], passes.upcoming, passes.dialect.trans legible.dialect_eq, nofun,
      fun d t rest faces _ => advance_of_faces faces⟩
  error c x e legible more run := absurd run not_liftM_grammatical

/-- At this token. -/
abbrev at' (t : Token) (c : Cursor) : Prop := c.current = t

theorem inside_of_at {t : Token} {c : Cursor} (more : t.isEnd = false) (h : at' t c) :
    inside c := by
  rwa [inside, show c.current = t from h]

theorem current_of_some {c d : Cursor} {taken : List Token} {rest other : List Outcome}
    (view : c.upcoming = taken.map .ok ++ rest) (some : taken ≠ [])
    (faces : d.Faces dialect (taken.map .ok ++ other)) : d.current = c.current := by
  obtain ⟨t, others, rfl⟩ := List.exists_cons_of_ne_nil some
  exact faces.current.trans (current_of_upcoming view).symm

theorem current_of_faces {c d : Cursor} {taken : List Token} {t : Token} {rest other : List Outcome}
    (view : c.upcoming = taken.map .ok ++ .ok t :: rest)
    (faces : d.Faces dialect (taken.map .ok ++ .ok t :: other)) : d.current = c.current := by
  by_cases none : taken = []
  · subst none
    exact faces.current.trans (current_of_upcoming view).symm
  · exact current_of_some view none faces

theorem Completes.of_current {c : Cursor} {q' : Parser α} {taken : List Token}
    {rest : List Outcome} (view : c.upcoming = taken.map .ok ++ rest) (some : taken ≠ [])
    (h : Completes dialect q' taken k)
    (same : ∀ d, IsInput d.upcoming → d.current = c.current → q d = q' d) :
    Completes dialect q taken k :=
  h.of_eq fun d _ faces =>
    same d faces.input (current_of_some view some (List.map_append ▸ faces))

/-- What a run shows of a parser it shows of every other that does the same at its token, and at the
tokens that may stand there instead if none is taken. -/
theorem Took.of_current {q' : Parser α} {c e : Cursor} {a : α} {taken : List Token}
    (h : Took dialect q' k c a e taken) (here : ∀ d, d.current = c.current → q d = q' d)
    (instead : ¬ k.takes → ∀ d, k.instead d.current.spelling → q d = q' d) :
    Took dialect q k c a e taken := by
  refine h.of_eq fun d t rest faces next => ?_
  by_cases none : taken = []
  · subst none
    rcases next with rfl | allowed
    · exact here d (current_of_faces h.upcoming faces)
    · have noTakes : ¬ k.takes := fun takes => h.some (.inl takes) rfl
      exact instead noTakes d (faces.current ▸ allowed.1 rfl)
  · exact here d (current_of_some h.upcoming none faces)

theorem Stuck.of_current {q' : Parser α} {c : Cursor} {x : SyntaxError} {taken : List Token}
    {t : Token} {rest : List Outcome} (h : Stuck dialect viable q' k c x taken t rest)
    (here : ∀ d, d.current = c.current → q d = q' d) : Stuck dialect viable q k c x taken t rest :=
  h.of_eq (fun d _ faces => here d (current_of_faces h.upcoming faces))
    fun some d _ faces => here d (current_of_some h.upcoming some (List.map_append ▸ faces))

/-- What is done depends on the current token. At some tokens the parser takes one, at the others it
always does the same. -/
theorem foresees_choice (f f' : Token → Parser α) (no no' : Parser α)
    (first : ∀ c, p c = f c.current c) (second : ∀ c, q c = f' c.current c)
    (cases : ∀ c, start c →
      Foresees dialect viable (fun d => start d ∧ at' c.current d) (f c.current) (f' c.current)
        { k with takes := True, instead := fun _ => True } ∨
      f c.current = no ∧ f' c.current = no' ∧
        Foresees dialect viable (fun d => start d ∧ at' c.current d) no no' k)
    (instead : ¬ k.takes → ∀ t, k.instead t.spelling → f' t = no') :
    Foresees dialect viable start p q k := by
  have covers : Conduct.Covers { k with takes := True, instead := fun _ => True } k :=
    ⟨fun _ => id, fun _ _ => .inl trivial, fun _ => id, fun _ => trivial, fun _ => id⟩
  have again (c d : Cursor) (here : d.current = c.current) : q d = f' c.current d := by
    rw [second, here]
  refine ⟨fun c a e legible begins run => ?_, fun c x e legible begins run => ?_⟩
  · rw [first] at run
    rcases cases c begins with h | ⟨same, same', h⟩
    · obtain ⟨taken, took⟩ := h.ok legible ⟨begins, rfl⟩ run
      have took := took.of_current (again c) fun noTakes => absurd trivial noTakes
      exact ⟨taken, took.mono covers⟩
    · rw [same] at run
      obtain ⟨taken, took⟩ := h.ok legible ⟨begins, rfl⟩ run
      rw [← same'] at took
      refine ⟨taken, took.of_current (again c) fun noTakes d stands => ?_⟩
      rw [second, instead noTakes _ stands, same']
  · rw [first] at run
    rcases cases c begins with h | ⟨same, same', h⟩
    · obtain ⟨taken, t, rest, stuck⟩ := h.error legible ⟨begins, rfl⟩ run
      exact ⟨taken, t, rest, (stuck.of_current (again c)).mono covers⟩
    · rw [same] at run
      obtain ⟨taken, t, rest, stuck⟩ := h.error legible ⟨begins, rfl⟩ run
      rw [← same'] at stuck
      exact ⟨taken, t, rest, stuck.of_current (again c)⟩

/-- What is done may use the current token, if it is taken. -/
theorem foresees_current {f f' : Token → Parser α} (takes : k.takes)
    (h : ∀ t, Foresees dialect viable (fun c => start c ∧ at' t c) (f t) (f' t) k) :
    Foresees dialect viable start (current >>= f) (current >>= f') k :=
  foresees_choice f f' (current >>= f) (current >>= f') (fun _ => rfl) (fun _ => rfl)
    (fun c _ => .inl ((h c.current).mono
      ⟨fun _ => id, fun _ _ => .inl takes, fun _ => id, fun _ => takes, fun _ => id⟩))
    fun noTakes => absurd takes noTakes

/-- At any token. -/
abbrev anywhere : Cursor → Prop := fun _ => True

/-- Behind the current token. -/
theorem Foretells.passed {t : Token} {l : Conduct α} (h : Foretells dialect viable p q l)
    (more : t.isEnd = false) (after : ∀ w, k.after w → l.after w ∧ (l.takes ∨ l.instead w))
    (good : ∀ a, l.good a → k.good a) :
    Foresees dialect viable (at' t) (liftM Cursor.advance >>= fun _ => p)
      (liftM Cursor.advance >>= fun _ => q) { k with takes := True, instead := fun _ => True } := by
  refine (((foresees_advance { takes := True, enters := fun _ => True }).bind (fun _ => h)
    fun _ _ => trivial).from fun _ => inside_of_at more).mono
      ⟨fun w stops => ?_, fun _ _ => .inl (.inl trivial), good, fun _ => .inl trivial,
        fun _ _ => trivial⟩
  obtain ⟨ends, more⟩ := after w stops
  exact ⟨ends, more.imp_right fun starts => ⟨trivial, starts⟩⟩

/-- At some tokens one is taken. -/
theorem foresees_if (test : Token → Prop) [DecidablePred test] (yes yes' : Token → Parser α)
    {no no' : Parser α}
    (first : ∀ c, p c = (if test c.current then yes c.current else no : Parser α) c)
    (second : ∀ c, q c = (if test c.current then yes' c.current else no' : Parser α) c)
    (taken : ∀ t, test t → Foresees dialect viable (at' t) (yes t) (yes' t)
      { k with takes := True, instead := fun _ => True })
    (otherwise : Foresees dialect viable (fun c => start c ∧ ¬ test c.current) no no' k)
    (instead : ¬ k.takes → ∀ t, k.instead t.spelling → ¬ test t) :
    Foresees dialect viable start p q k := by
  refine foresees_choice (fun t => if test t then yes t else no)
    (fun t => if test t then yes' t else no') no no' first second (fun c _ => ?_)
      fun noTakes t stops => ?_
  · by_cases here : test c.current
    · simp only [here, ↓reduceIte]
      exact .inl ((taken _ here).from fun _ there => there.2)
    · simp only [here, ↓reduceIte]
      refine .inr ⟨trivial, trivial, otherwise.from fun d ⟨begins, same⟩ => ⟨begins, ?_⟩⟩
      rwa [show d.current = c.current from same]
  · simp only [instead noTakes t stops, ↓reduceIte]

/-- At some tokens one is taken, and what is done depends on what the token is seen as. -/
theorem foresees_match {γ : Type} (seen : Token → Option γ) (yes yes' : γ → Parser α)
    {no no' : Parser α} (first : ∀ c, p c = (seen c.current).elim no yes c)
    (second : ∀ c, q c = (seen c.current).elim no' yes' c)
    (taken : ∀ t v, seen t = some v → Foresees dialect viable (at' t) (yes v) (yes' v)
      { k with takes := True, instead := fun _ => True })
    (otherwise : Foresees dialect viable (fun c => start c ∧ seen c.current = none) no no' k)
    (instead : ¬ k.takes → ∀ t, k.instead t.spelling → seen t = none) :
    Foresees dialect viable start p q k := by
  refine foresees_choice (fun t => (seen t).elim no yes) (fun t => (seen t).elim no' yes') no no'
    first second (fun c _ => ?_) fun noTakes t stops => by rw [instead noTakes t stops]; rfl
  cases what : seen c.current with
  | some v => exact .inl ((taken _ v what).from fun _ there => there.2)
  | none =>
    refine .inr ⟨rfl, rfl, otherwise.from fun d ⟨begins, same⟩ => ⟨begins, ?_⟩⟩
    rwa [show d.current = c.current from same]

theorem consume_bind (pattern : Pattern) (f : Bool → Parser α) (c : Cursor) :
    (liftM (Cursor.consume pattern) >>= f) c =
      (if pattern.accepts c.current then liftM Cursor.advance >>= fun _ => f true
        else f false : Parser α) c := by
  rw [liftM_consume, bind_assoc, get_bind]
  split
  · rw [bind_assoc]
    rfl
  · rw [pure_bind]

/-- Behind a token that is taken if the pattern accepts it, or where it is not. -/
theorem foresees_consume_bind {pattern : Pattern} {g g' : Bool → Parser α} {l : Conduct α}
    (more : ∀ t, pattern.accepts t → t.isEnd = false)
    (yes : Foretells dialect viable (g true) (g' true) l)
    (no : Foresees dialect viable start (g false) (g' false) k)
    (after : ∀ w, k.after w → l.after w ∧ (l.takes ∨ l.instead w))
    (good : ∀ a, l.good a → k.good a)
    (instead : ¬ k.takes → ∀ t, k.instead t.spelling → pattern.accepts t = false) :
    Foresees dialect viable start (liftM (Cursor.consume pattern) >>= g)
      (liftM (Cursor.consume pattern) >>= g') k := by
  refine foresees_if (pattern.accepts ·) (fun _ => liftM Cursor.advance >>= fun _ => g true)
    (fun _ => liftM Cursor.advance >>= fun _ => g' true) (consume_bind pattern g)
    (consume_bind pattern g') (fun t accepted => ?_) (no.from fun _ begins => begins.1)
      fun noTakes t stops => Bool.eq_false_iff.mp (instead noTakes t stops)
  exact yes.passed (more t accepted) after good

/-- Behind a text that is taken, or where it is not. -/
theorem foresees_takes_bind {text : String} {g g' : Bool → Parser α} {l : Conduct α}
    (yes : Foretells dialect viable (g true) (g' true) l)
    (no : Foresees dialect viable start (g false) (g' false) k)
    (after : ∀ w, k.after w → l.after w ∧ (l.takes ∨ l.instead w))
    (good : ∀ a, l.good a → k.good a)
    (instead : ¬ k.takes → ∀ w, k.instead w → w.isText text = false) :
    Foresees dialect viable start (takes text >>= g) (takes text >>= g') k :=
  foresees_consume_bind (fun _ => isEnd_of_accepts) yes no after good
    fun noTakes _ => instead noTakes _

/-- Nothing is missing where a text is taken or not. -/
theorem foresees_takes (text : String) :
    Foresees dialect viable anywhere (takes text) (takes text)
      { instead := fun w => w.isText text = false, good := fun _ => False } := by
  have eq (c : Cursor) : takes text c = (if (Pattern.text text).accepts c.current then
      liftM Cursor.advance >>= fun _ => pure true else pure false : Parser Bool) c := by
    rw [takes, liftM_consume, get_bind]
  refine foresees_if ((Pattern.text text).accepts ·) (fun _ => liftM Cursor.advance >>= fun _ =>
    pure true) (fun _ => liftM Cursor.advance >>= fun _ => pure true) eq eq (fun t accepted => ?_)
      (foresees_pure false id fun _ _ => id) fun _ t stops => Bool.eq_false_iff.mp stops
  exact ((foresees_advance { takes := True, good := fun _ => False }).then_pure
    (f := fun _ => true) (fun _ => False) fun _ => id).from
      fun _ => inside_of_at (isEnd_of_accepts accepted)

theorem foretells_expect {text : String} {w : Word} (spelled : w.isText text)
    (proper : w.IsProper dialect) :
    Foretells dialect viable (expect text) (expect text) (.enclosed [w]) where
  foresees := by
    have done : Foretells dialect viable (pure ()) (pure ()) {} := foretells_pure trivial
    exact foresees_takes_bind done (foresees_expected _ fun _ _ => id)
      (fun _ _ => ⟨trivial, .inr trivial⟩) (fun _ _ => trivial) fun noTakes => absurd trivial noTakes
  feeds _ := ⟨by simpa [Conduct.enclosed] using proper, fun v rest _ => goes_expect spelled⟩

theorem inside_of_kind {t : Token} {kind : TokenKind} (h : t.kind = kind)
    (other : kind ≠ .endOfInput) : t.isEnd = false := by
  simpa [Token.isEnd, h] using other

theorem foretells_identifier : Foretells dialect viable identifier identifier
    { takes := True, enters := (·.kind = .identifier), words := [someName] } where
  foresees := by
    refine foresees_if (·.kind = .identifier)
      (fun t => liftM Cursor.advance >>= fun _ => pure (.ofToken t))
      (fun t => liftM Cursor.advance >>= fun _ => pure (.ofToken t)) (fun _ => rfl) (fun _ => rfl)
      (fun t named => ?_) (foresees_expected _ fun _ begins => begins.2) fun noTakes => absurd trivial noTakes
    have done : Foretells dialect viable (pure (Identifier.ofToken t))
        (pure (Identifier.ofToken t)) {} := foretells_pure trivial
    exact done.passed (inside_of_kind named (by decide)) (fun _ _ => ⟨trivial, .inr trivial⟩)
      fun _ => id
  feeds _ := ⟨by simpa using isProper_someName, fun v rest _ =>
    (goes_identifier rfl).mono fun _ _ => trivial⟩

/-- Where the part gives none it has taken no token. -/
def NoneTakesNone (part : Parser (Option α)) : Prop :=
  ∀ ⦃c d⦄, IsInput c.upcoming → part c = .ok none d → d.upcoming = c.upcoming

theorem noneTakesNone_of_reads {part : Parser (Option α)} {l : α → Language Token}
    (h : part.Reads (ifAny l)) : NoneTakesNone part := by
  intro c d input run
  obtain ⟨⟨_, rfl, passes⟩, -⟩ := h input run
  exact passes.upcoming_eq

theorem noneTakesNone_of_extends {step : α → Parser (Option α)} {l : α → Language Token}
    (h : Extends step l) (a : α) : NoneTakesNone (step a) := by
  intro c d input run
  obtain ⟨⟨_, rfl, passes⟩, -⟩ := h input run
  exact passes.upcoming_eq

/-- What an optional part gives, or a failure where it gives none. -/
def orElse (fail : Parser α) : Option α → Parser α
  | some a => pure a
  | none => fail

section Missing

variable {fail : Parser α} {part part' : Parser (Option α)} {l : Conduct (Option α)}
  {good : α → Prop}

/-- A part that must not be missing, where nothing but a failure is known of the other case. -/
theorem foresees_orElse (h : Foresees dialect viable anywhere part part' l)
    (some : ∀ a, l.good a → Present good a) (shrinks : Shrinks part) (none : NoneTakesNone part)
    (failing : Foresees dialect viable anywhere fail fail { good := good })
    (fails : ∀ c a e, fail c ≠ .ok a e) :
    Foresees dialect viable anywhere (part >>= orElse fail) (part' >>= orElse fail)
      { after := l.after, good := good, takes := True, enters := l.enters } := by
  have rest (r : Option α) : Foresees dialect viable anywhere (orElse fail r) (orElse fail r)
      { good := good } := by
    cases r with
    | none => exact failing
    | some a => exact foresees_pure a id fun _ _ => id
  have whole := h.bind_of (fun r => (rest r).from fun _ _ => trivial)
    (fun can c r e x g taken legible run failed took more => ?_)
    fun can => ⟨[], .nil, fun w stops => (stops.2.resolve_left id).1, ?_⟩
  · refine (whole.taking fun c a e input run => ?_).mono
      ⟨fun w stops => ⟨trivial, .inr ⟨stops, trivial⟩⟩, fun _ _ => .inl trivial, fun _ => id, id,
        fun _ => id⟩
    obtain ⟨r, d, ofPart, result⟩ := bind_ok.mp run
    cases r with
    | none => exact absurd result (fails d a e)
    | some b =>
      obtain ⟨rfl, rfl⟩ := pure_ok.mp result
      exact fun same => absurd (shrinks input ofPart).2 (by rw [same]; omega)
  · cases r with
    | none => exact absurd (took.nil_of_upcoming (none legible.input run)) more
    | some b => cases failed
  · intro r isGood w others stops
    obtain ⟨a, rfl, isFine⟩ := some r isGood
    exact goes_pure isFine

theorem foresees_required (what : Expectation) (h : Foresees dialect viable anywhere part part' l)
    (some : ∀ a, l.good a → Present good a) (shrinks : Shrinks part) (none : NoneTakesNone part) :
    Foresees dialect viable anywhere (required what part) (required what part')
      { after := l.after, good := good, takes := True, enters := l.enters } := by
  exact foresees_orElse h some shrinks none (foresees_expected what fun _ _ => id)
    fun _ _ _ => not_expected_ok

end Missing

theorem foretells_required (what : Expectation) {part part' : Parser (Option α)}
    {l : Conduct (Option α)} {good : α → Prop} (h : Foretells dialect viable part part' l)
    (some : ∀ a, l.good a → Present good a) (shrinks : Shrinks part) (none : NoneTakesNone part) :
    Foretells dialect viable (required what part) (required what part')
      { after := l.after, good := good, takes := True, enters := l.enters, words := l.words } where
  foresees := (foresees_required what h.foresees some shrinks none).mono
    ⟨fun _ => id, fun _ _ => .inl trivial, fun _ => id, id, fun _ => id⟩
  feeds v := ⟨(h.feeds v).proper, fun w rest stops =>
    goes_required (((h.feeds v).goes w rest stops).mono some)⟩

theorem discard_eq (p : Parser α) : (discard p : Parser Unit) = p >>= fun _ => pure () := by
  funext c
  change EStateM.map _ p c = EStateM.bind p _ c
  rw [EStateM.map, EStateM.bind]
  cases p c <;> rfl

theorem foretells_discard (h : Foretells dialect viable p q k) :
    Foretells dialect viable (discard p) (discard q)
      { after := k.after, instead := k.instead, takes := k.takes, enters := k.enters,
        words := k.words } where
  foresees := by
    rw [discard_eq, discard_eq]
    exact h.foresees.then_pure (fun _ => True) fun _ _ => trivial
  feeds v := ⟨(h.feeds v).proper, fun w rest stops => goes_discard ((h.feeds v).goes w rest stops)⟩

/-- An item, or none where the text is missing. -/
theorem foretells_behind (text : String) {l : Conduct α}
    (item : Foretells dialect viable p q l) :
    Foretells dialect viable (behind text p) (behind text q)
      { after := fun w => w.isText text = false ∧ l.after w ∧ (l.takes ∨ l.instead w),
        instead := fun w => w.isText text = false } where
  foresees := by
    have yes := item.then_pure (f := some) (fun _ => True) fun _ _ => trivial
    exact foresees_takes_bind yes (foresees_pure none id fun _ _ => id)
      (fun _ stops => stops.2) (fun _ => id) fun _ _ => id
  feeds _ := ⟨.nil, fun w rest stops => (goes_behind_other stops.1).mono fun _ _ => trivial⟩

section Lookahead

variable {pattern : Pattern} {t u : Token} {c : Cursor} {rest : List Outcome}

/-- What is done depends on the token behind the current one. -/
def ifNext (pattern : Pattern) (yes no : Parser α) : Parser α := do
  if ← Cursor.nextMatchesAny [pattern] then yes else no

variable (pattern) (yes no : Parser α)

theorem ifNext_of_token (faces : c.Faces dialect (.ok t :: .ok u :: rest)) :
    ∃ d, ifNext pattern yes no c = (if pattern.accepts u then yes else no : Parser α) d ∧
      d.Faces dialect (.ok t :: .ok u :: rest) := by
  obtain ⟨d, looked, passes⟩ := Cursor.next_of_token (faces.current ▸ faces.upcoming)
  refine ⟨d, ?_, faces.of_passes passes⟩
  rw [ifNext, liftM_nextMatchesAny, bind_assoc, bind_eq_of_ok (liftM_ok.mpr looked), pure_bind,
    List.any_cons, List.any_nil, Bool.or_false]

theorem ifNext_of_error {e : LexError} (faces : c.Faces dialect (.ok t :: .error e :: rest)) :
    ∃ d, ifNext pattern yes no c = .error (.lexical e) d := by
  obtain ⟨d, looked⟩ := Cursor.next_of_error (faces.current ▸ faces.upcoming)
  refine ⟨d, ?_⟩
  rw [ifNext, liftM_nextMatchesAny, bind_assoc, bind_eq_of_error (liftM_of_error looked)]

/-- If no faulty lexeme is met, the token behind the current one tells what is done. -/
theorem ifNext_cases (legible : c.IsLegible dialect) (here : at' t c) (more : t.isEnd = false) :
    (∃ e d, ifNext pattern yes no c = .error (.lexical e) d) ∨
      ∃ u rest d, c.upcoming = .ok t :: .ok u :: rest ∧ d.upcoming = c.upcoming ∧
        d.IsLegible dialect ∧
        ifNext pattern yes no c = (if pattern.accepts u then yes else no : Parser α) d := by
  obtain rfl : c.current = t := here
  obtain ⟨x, rest, view⟩ := List.exists_cons_of_ne_nil (legible.input.tail_ne_nil more)
  have view : c.upcoming = .ok c.current :: x :: rest := congrArg _ view
  cases x with
  | error e =>
    obtain ⟨d, failed⟩ := ifNext_of_error pattern yes no (view ▸ legible.faces)
    exact .inl ⟨e, d, failed⟩
  | ok u =>
    obtain ⟨d, same, faces⟩ := ifNext_of_token pattern yes no (view ▸ legible.faces)
    have unmoved : c.upcoming = [].map .ok ++ d.upcoming := by rw [faces.upcoming, view]; rfl
    exact .inr ⟨u, rest, d, view, unmoved.symm, legible.behind unmoved faces.dialect_eq, same⟩

variable {pattern yes no} {yes' no' : Parser α}

/-- The part that the token behind the current one tells. -/
theorem foresees_part
    (first : Foresees dialect viable (fun c => at' t c ∧ c.NextIs pattern) yes yes' k)
    (second : Foresees dialect viable (fun c => at' t c ∧ ¬ c.NextIs pattern) no no' k) :
    Foresees dialect viable (·.upcoming = .ok t :: .ok u :: rest)
      (if pattern.accepts u then yes else no) (if pattern.accepts u then yes' else no') k := by
  have here {c : Cursor} (view : c.upcoming = .ok t :: .ok u :: rest) : at' t c :=
    current_of_upcoming view
  split
  · next accepted =>
    exact first.from fun c view => ⟨here view, u, rest, here view ▸ view, accepted⟩
  · next refused =>
    refine second.from fun c view => ⟨here view, ?_⟩
    rintro ⟨v, others, same, accepted⟩
    rw [view] at same
    cases same
    exact refused accepted

/-- The tokens begin with the first of these two, if there are any, and then with the second. -/
theorem two_of_append {taken : List Token} {outcomes rest : List Outcome}
    (view : .ok t :: .ok u :: outcomes = taken.map Except.ok ++ rest) (some : taken ≠ []) :
    taken = [t] ∨ ∃ others, taken = t :: u :: others := by
  match taken, view with
  | [_], view => exact .inl (by cases view; rfl)
  | _ :: _ :: others, view => exact .inr ⟨others, by cases view; rfl⟩

/-- The part that was chosen is chosen again before the other tokens that may stand behind, if the
token behind the current one is refused or accepted as before. -/
theorem yields_ifNext {a : α} {taken : List Token} {next : Token → Prop} {outcomes : List Outcome}
    (split : .ok t :: .ok u :: rest = taken.map Except.ok ++ outcomes) (some : taken ≠ [])
    (alike : taken = [t] → ∀ v, next v → pattern.accepts v = pattern.accepts u)
    (h : Yields dialect (if pattern.accepts u then yes' else no') a taken next) :
    Yields dialect (ifNext pattern yes' no') a taken next := by
  intro d v behind faces allowed
  obtain rfl | ⟨others, rfl⟩ := two_of_append split some
  · obtain ⟨e, same, left⟩ := ifNext_of_token pattern yes' no' faces
    rw [same, alike rfl v allowed]
    exact h left allowed
  · obtain ⟨e, same, left⟩ := ifNext_of_token pattern yes' no' faces
    rw [same]
    exact h left allowed

/-- Where no token is taken the one behind the current one is seen, and it is compared. -/
theorem refuses_ifNext {fault : SyntaxFault} {taken : List Token} {v : Token}
    {behind : List Outcome}
    (split : .ok t :: .ok u :: rest = taken.map Except.ok ++ .ok v :: behind)
    (deep : taken = [] → fault = .nestingTooDeep)
    (h : Refuses dialect (if pattern.accepts u then yes' else no') fault taken v behind) :
    Refuses dialect (ifNext pattern yes' no') fault taken v behind := by
  intro d other faces alike
  have seen {others : List Outcome}
      (view : taken.map .ok ++ Except.ok v :: other = .ok t :: .ok u :: others) :
      ∃ x e, ifNext pattern yes' no' d = .error x e ∧ Repeats fault v other x := by
    obtain ⟨e, same, left⟩ := ifNext_of_token pattern yes' no' (view ▸ faces)
    rw [same]
    exact h (view ▸ left) alike
  by_cases none : taken = []
  · subst none
    cases split
    rcases alike (deep rfl) with next | ⟨x, faulty⟩
    · obtain ⟨others, rfl⟩ := List.head?_eq_some_iff.mp next
      exact seen rfl
    · obtain ⟨others, rfl⟩ := List.head?_eq_some_iff.mp faulty
      obtain ⟨e, failed⟩ := ifNext_of_error pattern yes' no' faces
      exact ⟨_, e, failed, .inr ⟨deep rfl, x, faulty, rfl⟩⟩
  · obtain rfl | ⟨others, rfl⟩ := two_of_append split none
    · cases split
      exact seen rfl
    · exact seen rfl

theorem completes_ifNext {others : List Token}
    (h : Completes dialect (if pattern.accepts u then yes' else no') (t :: u :: others) k) :
    Completes dialect (ifNext pattern yes' no') (t :: u :: others) k := by
  obtain ⟨words, proper, goes⟩ := h
  refine ⟨words, proper, fun d tokens w rest stops faces spelled => ?_⟩
  obtain ⟨e, same, left⟩ := ifNext_of_token pattern yes' no' faces
  rw [same]
  exact goes stops left spelled

/-- One of two parts is chosen by the token behind the current one, which both parts take. What
stands there matters only where no more than the current token is taken. -/
theorem foresees_ifNext (more : t.isEnd = false)
    (first : Foresees dialect viable (fun c => at' t c ∧ c.NextIs pattern) yes yes' k)
    (second : Foresees dialect viable (fun c => at' t c ∧ ¬ c.NextIs pattern) no no' k)
    (enters : k.enters t)
    (long : ∀ ⦃c a e⦄, IsInput c.upcoming → at' t c → c.NextIs pattern → yes c = .ok a e →
      e.upcoming.length + 1 < c.upcoming.length)
    (single : ∀ u : Token, k.after u.spelling → pattern.accepts u = false)
    (alone : viable → Word.IsWhole dialect t.spelling →
      Completes dialect (ifNext pattern yes' no') [t] k) :
    Foresees dialect viable (at' t) (ifNext pattern yes no) (ifNext pattern yes' no')
      { k with takes := True, instead := fun _ => True, enters := fun _ => True } where
  ok c a e legible here run := by
    obtain ⟨f, d, failed⟩ | ⟨u, rest, d, view, unmoved, stays, same⟩ :=
      ifNext_cases pattern yes no legible here more
    · rw [failed] at run
      cases run
    rw [same] at run
    have faced := unmoved.trans view
    have there : d.current = t := current_of_upcoming faced
    obtain ⟨taken, took⟩ := (foresees_part first second).ok stays faced run
    have some : taken ≠ [] := took.some (.inr (there ▸ enters))
    -- If only the current token is taken, the part is not the long one.
    have refused (only : taken = [t]) : pattern.accepts u = false := by
      by_contra accepted
      rw [Bool.not_eq_false] at accepted
      rw [if_pos accepted] at run
      have short := long stays.input there ⟨u, rest, there.symm ▸ faced, accepted⟩ run
      rw [took.upcoming, only] at short
      simp at short
    have alike (only : taken = [t]) (v : Token)
        (next : v = e.current ∨ k.Allows taken v.spelling) :
        pattern.accepts v = pattern.accepts u := by
      rcases next with rfl | allowed
      · have split := faced.symm.trans took.upcoming
        rw [only] at split
        rw [current_of_upcoming (List.cons.inj split).2.symm]
      · rw [single v (allowed.2 some), refused only]
    have chosen : Took dialect (ifNext pattern yes' no') k c a e taken :=
      ⟨unmoved ▸ took.upcoming, took.dialect_eq, fun _ => some,
        yields_ifNext (faced.symm.trans took.upcoming) some alike took.yields⟩
    exact ⟨taken, chosen.taking some⟩
  error c x e legible here run := by
    obtain ⟨f, d, failed⟩ | ⟨u, rest, d, view, unmoved, stays, same⟩ :=
      ifNext_cases pattern yes no legible here more
    · rw [failed] at run
      cases run
    rw [same] at run
    have faced := unmoved.trans view
    obtain ⟨taken, v, behind, stuck⟩ := (foresees_part first second).error stays faced run
    have split := faced.symm.trans stuck.upcoming
    have deep : taken = [] → x.fault = .nestingTooDeep :=
      stuck.some (current_of_upcoming faced ▸ enters)
    refine ⟨taken, v, behind, unmoved ▸ stuck.upcoming, stuck.same, fun _ => deep,
      fun exact => refuses_ifNext split deep (stuck.refuses exact), fun can shallow some => ?_⟩
    obtain rfl | ⟨others, rfl⟩ := two_of_append split some
    · exact alone can (legible.whole t (by simp [view]) more)
    · exact completes_ifNext (stuck.completes can shallow some)

/-- Where the next token is accepted it is passed as well. -/
theorem consumeNext_eq (faces : c.Faces dialect (.ok t :: .ok u :: rest)) {text : String}
    (accepted : (Pattern.text text).accepts u) :
    ∃ d, (discard (Cursor.consumeNext (.text text)) : Parser Unit) c =
      (liftM Cursor.advance : Parser Unit) d ∧ d.Faces dialect (.ok u :: rest) := by
  obtain ⟨d, looked, unmoved⟩ := Cursor.next_of_token (faces.current ▸ faces.upcoming)
  obtain ⟨e, moved, behind⟩ := advance_of_faces (faces.of_passes unmoved)
  refine ⟨e, ?_, behind⟩
  have same : (liftM (Cursor.consumeNext (.text text)) : Parser Bool) c =
      (liftM Cursor.advance >>= fun _ => pure true : Parser Bool) e := by
    rw [liftM_consumeNext, bind_eq_of_ok (liftM_ok.mpr looked), if_pos accepted,
      bind_eq_of_ok moved]
  rw [discard_eq, bind_eq_of_eq same, bind_assoc]
  simp only [pure_bind, bind_pure_unit]

theorem foresees_consumeNext (text : String) :
    Foresees dialect viable (fun c => at' t c ∧ c.NextIs (.text text))
      (discard (Cursor.consumeNext (.text text))) (discard (Cursor.consumeNext (.text text)))
      { takes := True, enters := fun _ => True } where
  ok c a e legible start run := by
    obtain ⟨rfl, u, rest, view, accepted⟩ := start
    obtain ⟨d, same, faces⟩ := consumeNext_eq (view ▸ legible.faces) accepted
    have more : d.current.isEnd = false := faces.current ▸ isEnd_of_accepts accepted
    have passes := Cursor.passes_of_advance (liftM_ok.mp (same ▸ run)) faces.input more
    have left := faces.of_passes_one passes
    refine ⟨[c.current, u], ?_, left.dialect_eq, nofun, fun i v behind shown _ => ?_⟩
    · rw [view, left.upcoming]
      rfl
    · obtain ⟨f, again, next⟩ := consumeNext_eq shown accepted
      rw [again]
      exact advance_of_faces next
  error c x e legible start run := by
    obtain ⟨rfl, u, rest, view, accepted⟩ := start
    obtain ⟨d, same, -⟩ := consumeNext_eq (view ▸ legible.faces) accepted
    exact absurd (same ▸ run) not_liftM_grammatical

theorem passed_of_consumeNext {text : String} {d : Cursor} {a : Unit} (input : IsInput c.upcoming)
    (next : c.NextIs (.text text))
    (run : (discard (Cursor.consumeNext (.text text)) : Parser Unit) c = .ok a d) :
    (∃ u, c.upcoming = .ok c.current :: .ok u :: d.upcoming) ∧ IsInput d.upcoming := by
  obtain ⟨u, rest, view, accepted⟩ := next
  obtain ⟨e, same, faces⟩ := consumeNext_eq ⟨view, rfl, input⟩ accepted
  have more : e.current.isEnd = false := faces.current ▸ isEnd_of_accepts accepted
  have passes := Cursor.passes_of_advance (liftM_ok.mp (same ▸ run)) faces.input more
  have left := faces.of_passes_one passes
  exact ⟨⟨u, by rw [view, left.upcoming]⟩, left.input⟩

end Lookahead
end Parser
end LuaFrontend
