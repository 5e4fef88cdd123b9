import LuaFrontend.Proofs.ExpressionLikeness
import LuaFrontend.Proofs.StatementLoop

set_option autoImplicit false

namespace LuaFrontend

open Outcome (IsInput)

namespace Parser

variable {α : Type} {c d : Cursor}

/-- A loop that goes on for as long as its step gives something comes to this, after finitely many
rounds. -/
inductive Rounds (step : α → Parser (Option α)) :
    α → Cursor → EStateM.Result Error Cursor α → Prop
  | done {a : α} {c d : Cursor} : step a c = .ok none d → Rounds step a c (.ok a d)
  | failed {a : α} {c d : Cursor} {e : Error} : step a c = .error e d →
    Rounds step a c (.error e d)
  | next {a b : α} {c d : Cursor} {result : EStateM.Result Error Cursor α} :
    step a c = .ok (some b) d → Rounds step b d result → Rounds step a c result

/-- A loop with a bound comes to what it comes to without one. -/
theorem rounds_iff_grow {step : α → Parser (Option α)} {start : α}
    {result : EStateM.Result Error Cursor α} (h : ∀ a, Shrinks (step a))
    (input : IsInput c.upcoming) : Rounds step start c result ↔ grow step start c = result := by
  constructor
  · intro rounds
    induction rounds with
    | done run => rw [grow_eq h input, bind_eq_of_ok run]; rfl
    | failed run => rw [grow_eq h input, bind_eq_of_error run]
    | next run _ ih =>
      rw [grow_eq h input, bind_eq_of_ok run]
      exact ih (h _ input run).1
  · rintro rfl
    -- Every round but the last one leaves fewer tokens, so that a derivation comes to an end.
    induction size : c.upcoming.length using Nat.strong_induction_on generalizing start c with
    | _ n ih =>
      rw [grow_eq h input]
      cases run : step start c with
      | error e d =>
        rw [bind_eq_of_error run]
        exact .failed run
      | ok built d =>
        rw [bind_eq_of_ok run]
        cases built with
        | none => exact .done run
        | some a =>
          obtain ⟨further, less⟩ := h start input run
          exact .next run (ih _ (size ▸ less) further rfl)

/-- The step that puts one part more behind those that there are. -/
def collecting (step : Parser (Option α)) (parts : List α) : Parser (Option (List α)) := do
  match ← step with
  | some a => return some (parts ++ [a])
  | none => return none

theorem shrinks_collecting {step : Parser (Option α)} (h : Shrinks step) (parts : List α) :
    Shrinks (collecting step parts) := by
  intro c all d input run
  obtain ⟨part, e, first, result⟩ := bind_ok.mp run
  cases part with
  | some a =>
    obtain ⟨-, rfl⟩ := pure_ok.mp result
    exact h input first
  | none => cases (pure_ok.mp result).1

/-- A loop that gives its parts is one that collects them. -/
theorem grow_collecting {step : Parser (Option α)} (h : Shrinks step) (parts : List α)
    (input : IsInput c.upcoming) : grow (collecting step) parts c =
      (many step >>= fun others => pure (parts ++ others) : Parser (List α)) c := by
  induction size : c.upcoming.length using Nat.strong_induction_on generalizing parts c with
  | _ n ih =>
    rw [grow_eq (shrinks_collecting h) input, bind_eq_of_eq (many_eq h input), collecting]
    simp only [bind_assoc]
    cases run : step c with
    | error e d => rw [bind_eq_of_error run, bind_eq_of_error run]
    | ok part d =>
      rw [bind_eq_of_ok run, bind_eq_of_ok run]
      cases part with
      | none => simp
      | some a =>
        obtain ⟨further, less⟩ := h input run
        simpa using ih _ (size ▸ less) (parts ++ [a]) further rfl

theorem rounds_iff_many {step : Parser (Option α)} {result : EStateM.Result Error Cursor (List α)}
    (h : Shrinks step) (input : IsInput c.upcoming) :
    Rounds (collecting step) [] c result ↔ many step c = result := by
  rw [rounds_iff_grow (shrinks_collecting h) input, grow_collecting h [] input]
  simp

/-- Anywhere in a text, the loop ends, and comes to just one result. -/
def GrowEnds (step : α → Parser (Option α)) : Prop :=
  ∀ start c result, IsInput c.upcoming →
    (Rounds step start c result ↔ grow step start c = result)

/-- The same of a loop that gives its parts. -/
def ManyEnds (step : Parser (Option α)) : Prop :=
  ∀ c result, IsInput c.upcoming →
    (Rounds (collecting step) [] c result ↔ many step c = result)

theorem Shrinks.growEnds {step : α → Parser (Option α)} (h : ∀ a, Shrinks (step a)) :
    GrowEnds step :=
  fun _ _ _ => rounds_iff_grow h

theorem Shrinks.manyEnds {step : Parser (Option α)} (h : Shrinks step) : ManyEnds step :=
  fun _ _ => rounds_iff_many h

end Parser

namespace Grammar

open LuaFrontend.Parser

/-- Every loop that the rules go through ends by itself. -/
structure LoopsEnd (below : Below) : Prop where
  semicolons : ManyEnds (behind ";" (pure ()))
  statements : ManyEnds (statement? below)
  elseClauses : ManyEnds (elseClause? below)
  names : ManyEnds (behind "," identifier)
  path : ManyEnds (behind "." identifier)
  values : ManyEnds (behind "," (expression below))
  targets : ManyEnds (behind "," (target below))
  fields : ManyEnds (do if ← separator then field? below else return none)
  parameters : GrowEnds parameter
  suffixes : GrowEnds (suffix? below)
  operators : ∀ limit, GrowEnds (joined? below limit)

theorem loopsEnd {below : Below} (h : ReadsForms below) : LoopsEnd below where
  semicolons := shrinks_semicolon.manyEnds
  statements := (shrinks_statement? h).manyEnds
  elseClauses := (shrinks_elseClause? h).manyEnds
  names := (shrinks_behind "," reads_identifier).manyEnds
  path := (shrinks_behind "." reads_identifier).manyEnds
  values := (shrinks_behind "," (reads_expression h)).manyEnds
  targets := (shrinks_behind "," (reads_target h)).manyEnds
  fields := (Likeness.shrinks_nextField h).manyEnds
  parameters := Shrinks.growEnds shrinks_parameter
  suffixes := Shrinks.growEnds (shrinks_of_extends (extends_suffix? h))
  operators limit := Shrinks.growEnds (shrinks_of_extends (extends_joined? h limit))

end Grammar
end LuaFrontend
