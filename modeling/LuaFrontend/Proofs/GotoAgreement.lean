import LuaFrontend.Proofs.GotoNames

set_option autoImplicit false

namespace LuaFrontend

open Outcome (IsInput)

/-- The keyword `goto` is current. -/
def Cursor.AtGoto (c : Cursor) : Prop := c.current.isWord "goto"

namespace Cursor.Frees

variable {c d e f : Cursor}

theorem otherInput (h : c.Frees d) : IsInput d.upcoming := by
  rw [h.upcoming]
  exact h.input.map_freed

theorem current (h : c.Frees d) : d.current = c.current.freed := by
  have same := h.upcoming
  rw [Cursor.upcoming, Cursor.upcoming, List.map_cons] at same
  exact Except.ok.inj (List.cons.inj same).1

theorem isStrict (h : c.Frees d) : c.current.IsStrict := h.strict _ List.mem_cons_self

theorem record (h : c.Frees d) (first second : Event) :
    (c.record first).Frees (d.record second) :=
  ⟨h.upcoming, h.labels, h.input, h.strict⟩

/-- Both cursors pass as many tokens. -/
theorem passes {tokens : List Token} (h : c.Frees d) (first : c.Passes tokens e)
    (second : d.Passes (tokens.map Token.freed) f) : e.Frees f where
  upcoming := by
    have both := h.upcoming
    rw [first.upcoming, second.upcoming, List.map_append, List.map_map, List.map_map] at both
    exact List.append_cancel_left both
  labels := second.dialect ▸ h.labels
  input := first.input h.input
  strict t member := by
    apply h.strict
    rw [first.upcoming]
    exact List.mem_append_right _ member

theorem upcoming_token {t : Token} {rest : List Outcome} (h : c.Frees d)
    (view : c.upcoming = .ok c.current :: .ok t :: rest) :
    d.upcoming = .ok d.current :: .ok t.freed :: rest.map Outcome.freed := by
  rw [h.upcoming, view, h.current]
  rfl

theorem upcoming_end (h : c.Frees d) (view : c.upcoming = [.ok c.current]) :
    d.upcoming = [.ok d.current] := by
  rw [h.upcoming, view, h.current]
  rfl

theorem next (h : c.Frees d) {t : Token} (run : Cursor.next c = .ok t e) :
    ∃ f, Cursor.next d = .ok t.freed f ∧ e.Frees f := by
  rcases Cursor.next_cases c with ⟨k, same, passes, view⟩ | ⟨u, rest, k, same, passes, view⟩ |
    ⟨x, rest, k, same, -⟩
  · rw [same] at run
    cases run
    obtain ⟨f, again, further⟩ := Cursor.next_of_end (h.upcoming_end view)
    exact ⟨f, h.current ▸ again, h.passes passes further⟩
  · rw [same] at run
    cases run
    obtain ⟨f, again, further⟩ := Cursor.next_of_token (h.upcoming_token view)
    exact ⟨f, again, h.passes passes further⟩
  · rw [same] at run
    cases run

theorem advance (h : c.Frees d) (run : Cursor.advance c = .ok () e) :
    ∃ f, Cursor.advance d = .ok () f ∧ e.Frees f := by
  rcases Cursor.advance_cases c with ⟨k, same, passes, view⟩ | ⟨u, rest, k, same, passes, view⟩ |
    ⟨x, rest, k, same, -⟩
  · rw [same] at run
    cases run
    obtain ⟨f, again, further⟩ := Cursor.advance_of_end (h.upcoming_end view)
    exact ⟨f, again, h.passes passes further⟩
  · rw [same] at run
    cases run
    obtain ⟨f, again, further⟩ := Cursor.advance_of_token (h.upcoming_token view)
    rw [h.current] at further
    exact ⟨f, again, h.passes passes further⟩
  · rw [same] at run
    cases run

end Cursor.Frees

namespace Parser

variable {α β : Type} {poor : α → Prop} {worse : β → Prop} {p q : Parser α} {f : α → Parser β}

/-- What the parser gives where `goto` is reserved it gives where that is a name, unless it gives
something poor and stops at the keyword. -/
def AgreesOr (poor : α → Prop) (p : Parser α) : Prop :=
  ∀ ⦃c d a e⦄, c.Frees d → p c = .ok a e → (∃ f, p d = .ok a f ∧ e.Frees f) ∨ poor a ∧ e.AtGoto

/-- What the parser gives where `goto` is reserved it gives where that is a name. -/
abbrev Agrees (p : Parser α) : Prop := AgreesOr (fun _ => False) p

/-- From the keyword on, the parser gives only what is poor, and stays there. -/
def StopsAtGoto (poor : α → Prop) (p : Parser α) : Prop :=
  ∀ ⦃c a e⦄, c.AtGoto → p c = .ok a e → poor a ∧ e.AtGoto

theorem AgreesOr.mono {other : α → Prop} (h : AgreesOr poor p) (le : ∀ a, poor a → other a) :
    AgreesOr other p :=
  fun _ _ _ _ frees run => (h frees run).imp_right fun ⟨less, stops⟩ => ⟨le _ less, stops⟩

theorem Agrees.or (h : Agrees p) : AgreesOr poor p := h.mono fun _ => False.elim

theorem agreesOr_pure (a : α) : AgreesOr poor (pure a) := by
  intro c d b e frees run
  obtain ⟨rfl, rfl⟩ := pure_ok.mp run
  exact .inl ⟨d, rfl, frees⟩

theorem AgreesOr.bind (h : AgreesOr poor p) (next : ∀ a, AgreesOr worse (f a))
    (stops : ∀ a, poor a → StopsAtGoto worse (f a)) : AgreesOr worse (p >>= f) := by
  intro c d b e frees run
  obtain ⟨a, k, first, run⟩ := bind_ok.mp run
  rcases h frees first with ⟨l, again, further⟩ | ⟨less, stopped⟩
  · rw [bind_eq_of_ok again]
    exact next a further run
  · exact .inr (stops a less stopped run)

theorem Agrees.bind (h : Agrees p) (next : ∀ a, AgreesOr worse (f a)) :
    AgreesOr worse (p >>= f) :=
  AgreesOr.bind h next fun _ => False.elim

theorem stops_pure {a : α} (h : poor a) : StopsAtGoto poor (pure a) := by
  intro c b e stopped run
  obtain ⟨rfl, rfl⟩ := pure_ok.mp run
  exact ⟨h, stopped⟩

theorem StopsAtGoto.bind (h : StopsAtGoto poor p)
    (next : ∀ a, poor a → StopsAtGoto worse (f a)) : StopsAtGoto worse (p >>= f) := by
  intro c b e stopped run
  obtain ⟨a, k, first, run⟩ := bind_ok.mp run
  obtain ⟨less, still⟩ := h stopped first
  exact next a less still run

theorem agreesOr_failHere (fault : SyntaxFault) : AgreesOr poor (failHere fault : Parser α) :=
  fun _ _ _ _ _ run => (not_failHere_ok run).elim

theorem stops_failHere (fault : SyntaxFault) : StopsAtGoto poor (failHere fault : Parser α) :=
  fun _ _ _ _ run => (not_failHere_ok run).elim

theorem agreesOr_unexpected : AgreesOr poor (unexpected : Parser α) :=
  fun _ _ _ _ _ run => (not_unexpected_ok run).elim

theorem stops_unexpected : StopsAtGoto poor (unexpected : Parser α) :=
  fun _ _ _ _ run => (not_unexpected_ok run).elim

theorem agreesOr_ite {condition : Prop} [Decidable condition] (yes : AgreesOr poor p)
    (no : AgreesOr poor q) : AgreesOr poor (if condition then p else q) := by
  split
  · exact yes
  · exact no

theorem agreesOr_production (production : Production) (h : AgreesOr poor p) :
    AgreesOr poor (Parser.production production p) := by
  intro c d a e frees run
  obtain ⟨k, body, rfl⟩ := production_ok.mp run
  rcases h (frees.record _ (.enter production)) body with ⟨l, again, further⟩ | stopped
  · exact .inl ⟨_, production_ok.mpr ⟨l, again, rfl⟩, further.record _ _⟩
  · exact .inr stopped

theorem stops_production (production : Production) (h : StopsAtGoto poor p) :
    StopsAtGoto poor (Parser.production production p) := by
  intro c a e stopped run
  obtain ⟨k, body, rfl⟩ := production_ok.mp run
  obtain ⟨less, still⟩ := h (c := c.record (.enter production)) stopped body
  exact ⟨less, still⟩

theorem agrees_discard (h : Agrees p) : Agrees (Functor.discard p) := by
  intro c d u e frees run
  obtain ⟨a, first⟩ := discard_ok.mp run
  obtain ⟨k, again, further⟩ := (h frees first).resolve_right fun ⟨no, _⟩ => no
  exact .inl ⟨k, discard_ok.mpr ⟨a, again⟩, further⟩

section Tokens

/-- A parser that looks at the current token and treats `goto` alike as keyword and as name. -/
theorem agreesOr_current_bind {f : Token → Parser β}
    (same : ∀ start, f ⟨.identifier, "goto", start⟩ = f ⟨.keyword, "goto", start⟩)
    (h : ∀ t, AgreesOr worse (f t)) : AgreesOr worse (current >>= f) := by
  intro c d b e frees run
  have alike : f d.current = f c.current := by
    rw [frees.current]
    exact Token.freed_congr same
  rw [current_bind, alike]
  exact h c.current frees run

theorem agreesOr_next_bind {f : Token → Parser β}
    (same : ∀ start, f ⟨.identifier, "goto", start⟩ = f ⟨.keyword, "goto", start⟩)
    (h : ∀ t, AgreesOr worse (f t)) :
    AgreesOr worse ((liftM Cursor.next : Parser Token) >>= f) := by
  intro c d b e frees run
  obtain ⟨t, k, first, run⟩ := bind_ok.mp run
  obtain ⟨l, again, further⟩ := frees.next (liftM_ok.mp first)
  have alike : f t.freed = f t := Token.freed_congr same
  rw [bind_eq_of_ok (liftM_ok.mpr again), alike]
  exact h t further run

theorem agreesOr_get_bind {f : Cursor → Parser β} (same : ∀ c d, c.Frees d → f d = f c)
    (h : ∀ c, AgreesOr worse (f c)) : AgreesOr worse (get >>= f) := by
  intro c d b e frees run
  rw [get_bind, same c d frees]
  exact h c frees run

theorem stops_current_bind {f : Token → Parser β}
    (h : ∀ start, StopsAtGoto worse (f ⟨.keyword, "goto", start⟩)) :
    StopsAtGoto worse (current >>= f) := by
  intro c b e stopped run
  rw [current_bind, Token.eq_of_isWord stopped] at run
  exact h c.current.start stopped run

/-- Where a name can be read, the keyword is treated as what is no name. -/
theorem stops_ifName {yes : Token → Parser α} {no : Parser α} (h : StopsAtGoto poor no) :
    StopsAtGoto poor (current >>= fun t => if t.kind = .identifier then yes t else no) := by
  refine stops_current_bind fun start => ?_
  rw [if_neg TokenKind.noConfusion]
  exact h

theorem agreesOr_ifName {yes : Token → Parser α} {no : Parser α}
    (ofName : ∀ t, AgreesOr poor (yes t)) (ofOther : AgreesOr poor no)
    (stops : StopsAtGoto poor
      (current >>= fun t => if t.kind = .identifier then yes t else no)) :
    AgreesOr poor (current >>= fun t => if t.kind = .identifier then yes t else no) := by
  intro c d a e frees run
  cases goto : c.current.isWord "goto" with
  | true => exact .inr (stops goto run)
  | false =>
    rw [current_bind] at run ⊢
    rw [frees.current, Token.freed_of_other goto]
    exact agreesOr_ite (ofName _) ofOther frees run

theorem agrees_advance : Agrees (liftM Cursor.advance : Parser Unit) := by
  intro c d u e frees run
  obtain ⟨k, again, further⟩ := frees.advance (liftM_ok.mp run)
  exact .inl ⟨k, liftM_ok.mpr again, further⟩

variable {pattern : Pattern} {text : String}

theorem accepts_current (ignores : pattern.IgnoresGoto) {c d : Cursor} (frees : c.Frees d) :
    pattern.accepts d.current = pattern.accepts c.current := by
  rw [frees.current, ignores.accepts_freed]

theorem Agrees.consume (ignores : pattern.IgnoresGoto) :
    Agrees (liftM (Cursor.consume pattern) : Parser Bool) := by
  rw [liftM_consume]
  refine agreesOr_get_bind (fun c d frees => ?_) fun _ => agreesOr_ite ?_ (agreesOr_pure false)
  · rw [accepts_current ignores frees]
  · exact agrees_advance.bind fun _ => agreesOr_pure true

theorem stops_consume (ignores : pattern.IgnoresGoto) :
    StopsAtGoto (· = false) (liftM (Cursor.consume pattern) : Parser Bool) := by
  intro c taken e stopped run
  cases taken with
  | false =>
    have same : e = c := consume_ok (liftM_ok.mp run)
    exact ⟨rfl, same ▸ stopped⟩
  | true =>
    obtain ⟨accepted, -⟩ := consume_ok (liftM_ok.mp run)
    rw [ignores.accepts_of_isWord stopped] at accepted
    contradiction

theorem agrees_takes (other : text ≠ "goto") : Agrees (takes text) :=
  .consume (Pattern.ignoresGoto_text other)

theorem stops_takes (other : text ≠ "goto") : StopsAtGoto (· = false) (takes text) :=
  stops_consume (Pattern.ignoresGoto_text other)

theorem agrees_expect (other : text ≠ "goto") : Agrees (expect text) :=
  (agrees_takes other).bind fun _ => agreesOr_ite (agreesOr_pure ()) (agreesOr_failHere _)

/-- What has to follow is not the keyword. -/
theorem stops_expect_bind (other : text ≠ "goto") (f : Unit → Parser β) :
    StopsAtGoto worse (expect text >>= f) := by
  have fails : StopsAtGoto (fun _ => False) (expect text) := by
    refine (stops_takes other).bind fun taken no => ?_
    rw [no]
    exact stops_failHere _
  exact fails.bind fun _ => False.elim

theorem agreesOr_hasText (other : text ≠ "goto") (yes : AgreesOr poor p) (no : AgreesOr poor q) :
    AgreesOr poor (get >>= fun c => if c.hasText text then p else q) := by
  refine agreesOr_get_bind (fun c d frees => ?_) fun _ => agreesOr_ite yes no
  rw [Cursor.hasText, accepts_current (Pattern.ignoresGoto_text other) frees]
  rfl

theorem stops_hasText (other : text ≠ "goto") (no : StopsAtGoto poor q) :
    StopsAtGoto poor (get >>= fun c => if c.hasText text then p else q) := by
  intro c a e stopped run
  have absent : c.hasText text = false :=
    (Pattern.ignoresGoto_text other).accepts_of_isWord stopped
  rw [get_bind, absent, if_neg Bool.false_ne_true] at run
  exact no stopped run

theorem agreesOr_matchesAny {first second : String} (other : first ≠ "goto")
    (another : second ≠ "goto") (yes : AgreesOr poor p) (no : AgreesOr poor q) :
    AgreesOr poor (get >>= fun c =>
      if c.matchesAny [.text first, .text second] then p else q) := by
  refine agreesOr_get_bind (fun c d frees => ?_) fun _ => agreesOr_ite yes no
  have same : d.matchesAny [.text first, .text second] =
      c.matchesAny [.text first, .text second] := by
    simp only [Cursor.matchesAny, List.any_cons, List.any_nil,
      accepts_current (Pattern.ignoresGoto_text other) frees,
      accepts_current (Pattern.ignoresGoto_text another) frees]
  rw [same]

theorem agrees_nextMatchesAny (other : text ≠ "goto") :
    Agrees (liftM (Cursor.nextMatchesAny [.text text]) : Parser Bool) := by
  rw [liftM_nextMatchesAny]
  refine agreesOr_next_bind (fun start => ?_) fun _ => agreesOr_pure _
  have ignores := Pattern.ignoresGoto_text other start
  simp only [List.any_cons, List.any_nil, ignores.1, ignores.2]

theorem agrees_consumeNext (other : text ≠ "goto") :
    Agrees (liftM (Cursor.consumeNext (.text text)) : Parser Bool) := by
  rw [liftM_consumeNext]
  refine agreesOr_next_bind (fun start => ?_) fun _ => agreesOr_ite ?_ (agreesOr_pure false)
  · have ignores := Pattern.ignoresGoto_text other start
    simp only [ignores.1, ignores.2]
  · exact agrees_advance.bind fun _ => agrees_advance.bind fun _ => agreesOr_pure true

theorem agrees_identifier : Agrees identifier :=
  agreesOr_ifName (fun _ => agrees_advance.bind fun _ => agreesOr_pure _) (agreesOr_failHere _)
    (stops_ifName (stops_failHere _))

end Tokens

section Parts

variable {text : String} {l : α → Language Token}

/-- A part that is required is never missing at the keyword. -/
theorem agrees_required (what : Expectation) {part : Parser (Option α)}
    (h : AgreesOr (· = none) part) : Agrees (required what part) := by
  refine AgreesOr.bind h (fun result => ?_) fun result missing => ?_
  · cases result with
    | some a => exact agreesOr_pure a
    | none => exact agreesOr_failHere _
  · rw [missing]
    exact stops_failHere _

theorem agrees_behind (other : text ≠ "goto") (h : Agrees p) : Agrees (behind text p) :=
  (agrees_takes other).bind fun _ =>
    agreesOr_ite (h.bind fun _ => agreesOr_pure _) (agreesOr_pure none)

/-- A loop, the last step of which may be the poor one. -/
theorem agreesOr_many {step : Parser (Option α)} {poor : Option α → Prop} (shrinks : Shrinks step)
    (h : AgreesOr poor step) (given : ∀ a, ¬ poor (some a)) :
    AgreesOr (fun _ => poor none) (many step) := by
  intro c d parts e frees run
  -- On what the first run has left: only a given part is followed by another round, and a part
  -- that is given was not a poor one.
  induction size : c.upcoming.length using Nat.strong_induction_on generalizing c d parts with
  | _ n ih =>
    rw [many_eq shrinks frees.input] at run
    obtain ⟨part, k, first, run⟩ := bind_ok.mp run
    cases part with
    | none =>
      obtain ⟨rfl, rfl⟩ := pure_ok.mp run
      rcases h frees first with ⟨f, again, further⟩ | stopped
      · exact .inl ⟨f, many_of_none shrinks frees.otherInput again, further⟩
      · exact .inr stopped
    | some a =>
      obtain ⟨others, g, rest, result⟩ := bind_ok.mp run
      obtain ⟨rfl, rfl⟩ := pure_ok.mp result
      obtain ⟨f, again, further⟩ := (h frees first).resolve_right fun ⟨less, _⟩ => given a less
      have fewer := (shrinks frees.input first).2
      rcases ih _ (size ▸ fewer) further rest rfl with ⟨i, loop, last⟩ | stopped
      · refine .inl ⟨i, ?_, last⟩
        rw [many_of_some shrinks frees.otherInput again, bind_eq_of_ok loop]
        rfl
      · exact .inr stopped

theorem agrees_many {step : Parser (Option α)} (shrinks : Shrinks step) (h : Agrees step) :
    Agrees (many step) :=
  agreesOr_many shrinks h fun _ => id

theorem agrees_grow {step : α → Parser (Option α)} (shrinks : ∀ a, Shrinks (step a))
    (h : ∀ a, Agrees (step a)) (start : α) : Agrees (grow step start) := by
  intro c d result e frees run
  left
  induction size : c.upcoming.length using Nat.strong_induction_on generalizing c d start with
  | _ n ih =>
    rw [grow_eq shrinks frees.input] at run
    rw [grow_eq shrinks frees.otherInput]
    obtain ⟨built, k, first, run⟩ := bind_ok.mp run
    obtain ⟨f, again, further⟩ := (h start frees first).resolve_right fun ⟨no, _⟩ => no
    rw [bind_eq_of_ok again]
    cases built with
    | none =>
      obtain ⟨rfl, rfl⟩ := pure_ok.mp run
      exact ⟨f, rfl, further⟩
    | some a => exact ih _ (size ▸ (shrinks start frees.input first).2) a further run rfl

theorem agrees_afterCommas (reads : p.Reads l) (h : Agrees p) : Agrees (afterCommas p) :=
  agrees_many (shrinks_behind "," reads) (agrees_behind (by decide) h)

theorem agrees_commaSeparated (reads : p.Reads l) (h : Agrees p) : Agrees (commaSeparated p) :=
  h.bind fun _ => (agrees_afterCommas reads h).bind fun _ => agreesOr_pure _

end Parts

end Parser
end LuaFrontend
