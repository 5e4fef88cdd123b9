import LuaFrontend.Proofs.Likeness
import LuaFrontend.Proofs.TokenReading

set_option autoImplicit false

namespace LuaFrontend

open Outcome (IsInput)

/-- Only the end token is left. -/
structure Cursor.IsAtEnd (c : Cursor) : Prop where
  upcoming : c.upcoming = [.ok c.current]
  isEnd : c.current.isEnd

/-- A parser that begins at the end of a text stays there. -/
def Parser.KeepsEnd {α : Type} (p : Parser α) : Prop :=
  ∀ ⦃c a d⦄, c.IsAtEnd → p c = .ok a d → d.IsAtEnd

/-- A parser that gives nothing at the end of a text. -/
def Parser.FailsAtEnd {α : Type} (p : Parser α) : Prop :=
  ∀ ⦃c a d⦄, c.IsAtEnd → p c ≠ .ok a d

namespace Parser

variable {α β : Type} {p : Parser α} {f : α → Parser β}

theorem keepsEnd_pure (a : α) : KeepsEnd (pure a : Parser α) := by
  intro c b d ends run
  obtain ⟨-, rfl⟩ := pure_ok.mp run
  exact ends

theorem keepsEnd_of_reads {l : α → Language Token} (h : p.Reads l) : KeepsEnd p := by
  intro c a d ends run
  have input : IsInput c.upcoming := by
    rw [ends.upcoming]
    exact .final ends.isEnd
  obtain ⟨⟨tokens, -, passes⟩, rest⟩ := h input run
  have view := passes.upcoming
  rw [ends.upcoming] at view
  cases tokens with
  | nil =>
    have same := passes.current_eq
    refine ⟨?_, ?_⟩
    · rw [same]
      exact view.symm
    · rw [same]
      exact ends.isEnd
  | cons t tokens =>
    obtain ⟨-, none⟩ := List.cons.inj view
    exact absurd (List.append_eq_nil_iff.mp none.symm).2 rest.ne_nil

theorem keepsEnd_takes (text : String) : KeepsEnd (takes text) := by
  intro c taken d ends run
  cases taken with
  | true =>
    obtain ⟨accepted, -⟩ := consume_ok (liftM_ok.mp run)
    have more := isEnd_of_accepts accepted
    rw [ends.isEnd] at more
    contradiction
  | false =>
    rw [eq_of_takes_false run]
    exact ends

theorem keepsEnd_current_bind {f : Token → Parser β}
    (h : ∀ t : Token, t.isEnd → ∃ b, f t = pure b) : KeepsEnd (current >>= f) := by
  intro c b d ends run
  obtain ⟨a, same⟩ := h c.current ends.isEnd
  rw [current_bind, same] at run
  exact keepsEnd_pure a ends run

theorem FailsAtEnd.of_bind (h : KeepsEnd p) (fails : ∀ a, FailsAtEnd (f a)) :
    FailsAtEnd (p >>= f) := by
  intro c b d ends run
  obtain ⟨a, e, first, second⟩ := bind_ok.mp run
  exact fails a (h ends first) second

/-- A word that has to follow is missing at the end. -/
theorem failsAtEnd_expect_bind (text : String) (f : Unit → Parser β) :
    FailsAtEnd (expect text >>= f) := by
  intro c b d ends run
  obtain ⟨u, e, first, -⟩ := bind_ok.mp run
  obtain ⟨accepted, -⟩ := consume_ok (liftM_ok.mp (expect_ok.mp first))
  have more := isEnd_of_accepts accepted
  rw [ends.isEnd] at more
  contradiction

end Parser

namespace Likeness

open LuaFrontend.Parser (KeepsEnd FailsAtEnd bind_eq_of_ok)

variable (L : Likeness)

/-- The first text has ended, and where it does the second may go on. -/
structure Ended (c : Cursor) : Prop extends c.IsAtEnd where
  stops : ∃ t u, L.stop t u

/-- The first parser has come to the end of its text. -/
def Lost {α : Type} (x : EStateM.Result Error Cursor α) : Prop := ∃ a c, x = .ok a c ∧ L.Ended c

/-- The two parsers come to matching results, or the first one to the end of its text. -/
def PartlyFrom {α β : Type} (start : Token → Token → Prop) (p : Parser α) (q : Parser β)
    (r : α → β → Prop) : Prop :=
  ∀ ⦃c d⦄, L.Cursors c d → start c.current d.current → L.Results r (p c) (q d) ∨ L.Lost (p c)

abbrev Partly {α β : Type} (p : Parser α) (q : Parser β) (r : α → β → Prop) : Prop :=
  L.PartlyFrom L.Sees p q r

variable {L} {α β γ δ : Type} {start : Token → Token → Prop} {p : Parser α} {q : Parser β}
  {r : α → β → Prop}

theorem Ended.pardoned {c : Cursor} (h : L.Ended c) (e : Error) : L.pardoned e := by
  obtain ⟨t, u, stop⟩ := h.stops
  exact L.pardoned_of_stop stop e

theorem Cursors.ended {c d : Cursor} (h : L.Cursors c d) (stop : L.stop c.current d.current) :
    L.Ended c := by
  refine ⟨⟨?_, L.isEnd_of_stop stop⟩, _, _, stop⟩
  have input := h.input
  rw [Cursor.upcoming] at input ⊢
  rw [input.eq_nil_of_isEnd (L.isEnd_of_stop stop)]

theorem not_lost_error {e : Error} {c : Cursor} :
    ¬ L.Lost (.error e c : EStateM.Result Error Cursor α) := by
  rintro ⟨a, d, same, -⟩
  cases same

theorem RunsFrom.partly (h : L.RunsFrom start p q r) : L.PartlyFrom start p q r :=
  fun _ _ both holds => .inl (h both holds)

/-- Texts that end together are never lost. -/
theorem PartlyFrom.runs (h : L.PartlyFrom start p q r) (together : ∀ t u, ¬ L.stop t u) :
    L.RunsFrom start p q r := by
  intro c d both holds
  rcases h both holds with same | ⟨a, e, -, ended⟩
  · exact same
  · obtain ⟨t, u, stop⟩ := ended.stops
    exact absurd stop (together t u)

/-- What is lost at the beginning stays lost. -/
theorem PartlyFrom.of_token (h : L.PartlyFrom L.token p q r) (keeps : KeepsEnd p) :
    L.PartlyFrom start p q r := by
  intro c d both _
  rcases both.sees with same | stop
  · exact h both same
  · have ended := both.ended stop
    cases run : p c with
    | ok a e => exact .inr ⟨a, e, rfl, keeps ended.toIsAtEnd run, ended.stops⟩
    | error e k => exact .inl (results_of_error (ended.pardoned _) _)

theorem PartlyFrom.at {t u : Token} (h : L.PartlyFrom start p q r) (holds : start t u) :
    L.PartlyFrom (At t u) p q r := by
  rintro c d both ⟨rfl, rfl⟩
  exact h both holds

theorem partly_current_bind {f : Token → Parser α} {g : Token → Parser β}
    (h : ∀ t u, L.Sees t u → start t u → L.PartlyFrom (At t u) (f t) (g u) r) :
    L.PartlyFrom start (Parser.current >>= f) (Parser.current >>= g) r :=
  fun _ _ both holds => h _ _ both.sees holds both ⟨rfl, rfl⟩

theorem partly_discard (h : L.PartlyFrom start p q r) :
    L.PartlyFrom start (discard p) (discard q) fun _ _ => True := by
  intro c d both holds
  rcases h both holds with same | ⟨a, e, run, ended⟩
  · left
    change L.Results _ (EStateM.map _ p c) (EStateM.map _ q d)
    unfold EStateM.map
    cases run : p c <;> cases other : q d <;> rw [run, other] at same
    · exact ⟨trivial, same.2⟩
    · exact same
    · exact same
    · exact same
  · right
    refine ⟨(), e, ?_, ended⟩
    change EStateM.map _ p c = _
    simp only [EStateM.map, run]

theorem partly_production (production : Production) (h : L.PartlyFrom start p q r) :
    L.PartlyFrom start (Parser.production production p) (Parser.production production q) r := by
  intro c d both holds
  have result := h (both.record (.enter production) (.enter production)) holds
  unfold Parser.production
  cases run : p (c.record (.enter production)) <;>
    cases other : q (d.record (.enter production)) <;> rw [run, other] at result
  · rcases result with same | ⟨a, e, same, ended⟩
    · exact .inl ⟨same.1, same.2.record _ _⟩
    · cases same
      exact .inr ⟨_, _, rfl, ⟨ended.upcoming, ended.isEnd⟩, ended.stops⟩
  · rcases result with same | ⟨a, e, same, ended⟩
    · exact same.elim
    · cases same
      exact .inr ⟨_, _, rfl, ⟨ended.upcoming, ended.isEnd⟩, ended.stops⟩
  · exact .inl (result.resolve_right not_lost_error)
  · exact .inl (result.resolve_right not_lost_error)

/-- A run that is lost goes on from the end of its text. -/
theorem results_of_lost {f : α → Parser γ} {c : Cursor} (h : L.Lost (p c))
    (keeps : ∀ a, KeepsEnd (f a)) {s : γ → δ → Prop} (y : EStateM.Result Error Cursor δ) :
    L.Results s ((p >>= f) c) y ∨ L.Lost ((p >>= f) c) := by
  obtain ⟨a, e, run, ended⟩ := h
  rw [bind_eq_of_ok run]
  cases further : f a e with
  | ok b k => exact .inr ⟨b, k, rfl, keeps a ended.toIsAtEnd further, ended.stops⟩
  | error x k => exact .inl (results_of_error (ended.pardoned _) _)

theorem Results.bind_partly {f : α → Parser γ} {g : β → Parser δ} {s : γ → δ → Prop}
    {c d : Cursor} (h : L.Results r (p c) (q d))
    (next : ∀ a b e k, p c = .ok a e → q d = .ok b k → r a b → L.Cursors e k →
      L.Results s (f a e) (g b k) ∨ L.Lost (f a e)) :
    L.Results s ((p >>= f) c) ((q >>= g) d) ∨ L.Lost ((p >>= f) c) := by
  cases run : p c with
  | error x e => exact .inl (h.bind fun _ _ _ _ same => absurd (run.symm.trans same) nofun)
  | ok a e =>
    cases other : q d with
    | error x k =>
      rw [run, other] at h
      exact h.elim
    | ok b k =>
      rw [run, other] at h
      rw [bind_eq_of_ok run, bind_eq_of_ok other]
      exact next a b e k run other h.1 h.2

theorem RunsFrom.bind_partly {f : α → Parser γ} {g : β → Parser δ} {s : γ → δ → Prop}
    (h : L.RunsFrom start p q r) (next : ∀ a b, r a b → L.Partly (f a) (g b) s) :
    L.PartlyFrom start (p >>= f) (q >>= g) s :=
  fun _ _ both holds => (h both holds).bind_partly fun a b _ _ _ _ same further =>
    next a b same further further.sees

theorem PartlyFrom.bind {f : α → Parser γ} {g : β → Parser δ} {s : γ → δ → Prop}
    (h : L.PartlyFrom start p q r) (next : ∀ a b, r a b → L.Partly (f a) (g b) s)
    (keeps : ∀ a, KeepsEnd (f a)) : L.PartlyFrom start (p >>= f) (q >>= g) s := by
  intro c d both holds
  rcases h both holds with same | lost
  · exact same.bind_partly fun a b _ _ _ _ same further => next a b same further further.sees
  · exact results_of_lost lost keeps _

/-- What has to follow is missing where the first text has ended, so that nothing is lost. -/
theorem PartlyFrom.bind_failing {f : α → Parser γ} {g : β → Parser δ} {s : γ → δ → Prop}
    (h : L.PartlyFrom start p q r) (next : ∀ a b, r a b → L.Runs (f a) (g b) s)
    (fails : ∀ a, FailsAtEnd (f a)) : L.RunsFrom start (p >>= f) (q >>= g) s := by
  intro c d both holds
  rcases h both holds with same | ⟨a, e, run, ended⟩
  · exact same.bind fun a b _ _ _ _ same further => next a b same further further.sees
  · rw [bind_eq_of_ok run]
    exact results_of_pardoned ended.pardoned (fun _ _ => fails a ended.toIsAtEnd) _

theorem partly_behind (text : String) (h : L.Partly p q r)
    (tells : L.Tells start (.text text)) :
    L.PartlyFrom start (Parser.behind text p) (Parser.behind text q) (Option.Rel r) := by
  refine (runs_takes text tells).bind_partly fun taken _ same => ?_
  subst same
  cases taken with
  | true =>
    exact h.bind (fun _ _ same => RunsFrom.partly (runs_pure (.some same))) fun _ =>
      Parser.keepsEnd_pure _
  | false => exact RunsFrom.partly (runs_pure .none)

/-- A loop at the end of a text does nothing. -/
theorem keepsEnd_many {step : Parser (Option α)} (keeps : KeepsEnd step)
    (shrinks : Parser.Shrinks step) : KeepsEnd (Parser.many step) := by
  intro c a d ends run
  have input : IsInput c.upcoming := by
    rw [ends.upcoming]
    exact .final ends.isEnd
  rw [Parser.many_eq shrinks input] at run
  obtain ⟨result, e, first, second⟩ := Parser.bind_ok.mp run
  cases result with
  | none =>
    obtain ⟨-, rfl⟩ := Parser.pure_ok.mp second
    exact keeps ends first
  | some b =>
    have less := (shrinks input first).2
    rw [ends.upcoming, List.length_singleton] at less
    have positive := Parser.length_upcoming_pos e
    omega

theorem partly_many {step : Parser (Option α)} {other : Parser (Option β)}
    (h : L.Partly step other (Option.Rel r)) (keeps : KeepsEnd step)
    (shrinks : Parser.Shrinks step) (alsoShrinks : Parser.Shrinks other) :
    L.Partly (Parser.many step) (Parser.many other) (List.Forall₂ r) := by
  intro c d both _
  induction size : c.upcoming.length using Nat.strong_induction_on generalizing c d with
  | _ n ih =>
    rw [Parser.many_eq shrinks both.input, Parser.many_eq alsoShrinks both.other]
    rcases h both both.sees with same | lost
    · refine same.bind_partly fun a b e k run _ same further => ?_
      cases same with
      | none => exact .inl ⟨.nil, further⟩
      | some same =>
        have less := (shrinks both.input run).2
        rcases ih _ (size ▸ less) further further.sees rfl with others | lost
        · exact .inl (others.bind fun _ _ _ _ _ _ others last => ⟨.cons same others, last⟩)
        · exact results_of_lost lost (fun _ => Parser.keepsEnd_pure _) _
    · refine results_of_lost lost (fun result => ?_) _
      cases result with
      | none => exact Parser.keepsEnd_pure _
      | some a =>
        intro c' b d' ends run
        obtain ⟨others, e, first, second⟩ := Parser.bind_ok.mp run
        obtain ⟨-, rfl⟩ := Parser.pure_ok.mp second
        exact keepsEnd_many keeps shrinks ends first

end Likeness
end LuaFrontend
