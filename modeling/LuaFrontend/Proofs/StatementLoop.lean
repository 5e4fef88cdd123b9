import LuaFrontend.Proofs.StatementReading

set_option autoImplicit false

namespace LuaFrontend.Grammar

open LuaFrontend.Parser
open Outcome (IsInput)

variable {below : Below} {c d : Cursor}

/-- A statement that is no `return`, if one begins here. -/
def statementHere? (below : Below) : Parser (Option Statement) := do
  let token ← current
  if isInBlock token && !token.isWord "return" then return some (← statement below)
  else return none

/-- The statements that have been read, and a `return` if one follows. -/
def withReturn (below : Below) (statements : List Statement) : Parser Block := do
  if (← current).isWord "return" then return statements ++ [← returning below]
  else return statements

/-- The statements up to the end of a block. -/
def upToEnd (below : Below) : Parser Block := many (statement? below) >>= withReturn below

theorem isEnd_of_statementHere? {s : Statement} (run : statementHere? below c = .ok (some s) d) :
    c.current.isEnd = false := by
  rw [statementHere?, current_bind] at run
  split at run
  · next begins =>
    simp only [isInBlock, Bool.and_eq_true, Bool.not_eq_true'] at begins
    exact begins.1.1
  · obtain ⟨impossible, -⟩ := pure_ok.mp run
    cases impossible

/-- Where no statement begins, nothing is read. -/
theorem eq_of_statementHere? (run : statementHere? below c = .ok none d) : d = c := by
  rw [statementHere?, current_bind] at run
  split at run
  · obtain ⟨s, e, -, result⟩ := bind_ok.mp run
    obtain ⟨impossible, -⟩ := pure_ok.mp result
    cases impossible
  · exact (pure_ok.mp run).2

theorem statement?_eq (below : Below) : statement? below =
    discard (many (behind ";" (pure ()))) >>= fun _ => statementHere? below := rfl

theorem block_eq (below : Below) : block below = production .block (upToEnd below) := rfl

section Semicolons

theorem shrinks_semicolon : Shrinks (behind ";" (pure ())) :=
  shrinks_behind ";" reads_nothing

theorem takes_eq_of_accepts {text : String} (h : (Pattern.text text).accepts c.current) :
    takes text c = (liftM Cursor.advance >>= fun _ => pure true : Parser Bool) c := by
  rw [takes, liftM_consume, get_bind, if_pos h]

theorem semicolon_of_other (h : (Pattern.text ";").accepts c.current = false) :
    behind ";" (pure ()) c = .ok none c := by
  rw [behind_none, takes, liftM_consume, get_bind]
  simp only [h, Bool.false_eq_true, ↓reduceIte]
  rfl

theorem semicolon_of_advance (h : (Pattern.text ";").accepts c.current)
    (moved : (liftM Cursor.advance : Parser Unit) c = .ok () d) :
    behind ";" (pure ()) c = .ok (some ()) d := by
  refine behind_some.mpr ⟨d, ?_, rfl⟩
  rw [takes_eq_of_accepts h, bind_eq_of_ok moved]
  rfl

theorem semicolon_of_error (h : (Pattern.text ";").accepts c.current) {e : Error}
    (stuck : (liftM Cursor.advance : Parser Unit) c = .error e d) :
    behind ";" (pure ()) c = .error e d := by
  apply bind_eq_of_error
  rw [takes_eq_of_accepts h, bind_eq_of_error stuck]

/-- At another token than a semicolon a statement begins, or the block ends. -/
theorem statement?_of_other (input : IsInput c.upcoming)
    (h : (Pattern.text ";").accepts c.current = false) :
    statement? below c = statementHere? below c := by
  have none := many_of_none shrinks_semicolon input (semicolon_of_other h)
  exact bind_eq_of_ok (a := ()) (discard_ok.mpr ⟨[], none⟩)

/-- A semicolon before a statement is skipped. -/
theorem statement?_of_semicolon (input : IsInput c.upcoming)
    (h : (Pattern.text ";").accepts c.current) :
    statement? below c = (liftM Cursor.advance >>= fun _ => statement? below : Parser _) c := by
  cases moved : (liftM Cursor.advance : Parser Unit) c with
  | ok _ d =>
    rw [bind_eq_of_ok moved, statement?_eq]
    exact bind_eq_of_eq
      (discard_many_of_some shrinks_semicolon input (semicolon_of_advance h moved))
  | error e d =>
    rw [bind_eq_of_error moved, statement?_eq]
    apply bind_eq_of_error
    apply discard_error
    rw [many_eq shrinks_semicolon input, bind_eq_of_error (semicolon_of_error h moved)]

theorem statements_of_semicolon (reads : ReadsForms below) (input : IsInput c.upcoming)
    (h : (Pattern.text ";").accepts c.current) : many (statement? below) c =
      (liftM Cursor.advance >>= fun _ => many (statement? below) : Parser _) c := by
  have shrinks := shrinks_statement? reads
  have skipped : statement? below c = _ := statement?_of_semicolon input h
  rw [many_eq shrinks input]
  cases moved : (liftM Cursor.advance : Parser Unit) c with
  | ok _ d =>
    have further := (Cursor.passes_of_advance (liftM_ok.mp moved) input
      (isEnd_of_accepts h)).input input
    rw [bind_eq_of_ok moved] at skipped ⊢
    rw [many_eq shrinks further, bind_eq_of_eq skipped]
  | error e d =>
    rw [bind_eq_of_error moved] at skipped ⊢
    exact bind_eq_of_error skipped

theorem upToEnd_of_semicolon (reads : ReadsForms below) (input : IsInput c.upcoming)
    (h : (Pattern.text ";").accepts c.current) (moved : Cursor.advance c = .ok () d) :
    upToEnd below c = upToEnd below d := by
  apply bind_eq_of_eq
  rw [statements_of_semicolon reads input h, bind_eq_of_ok (liftM_ok.mpr moved)]

end Semicolons

/-- A block goes on behind statements as it would without them. -/
theorem withReturn_append (below : Below) (first second : List Statement) :
    withReturn below (first ++ second) =
      (withReturn below second >>= fun block => pure (first ++ block)) := by
  funext c
  rw [withReturn, withReturn, bind_assoc, current_bind, current_bind]
  split
  · simp only [bind_assoc, pure_bind, List.append_assoc]
  · rw [pure_bind]

/-- A block that does not end in a `return` ends behind its loop. -/
theorem withReturn_ok (reads : ReadsForms below) (input : IsInput c.upcoming)
    {statements block : List Statement} (run : withReturn below statements c = .ok block d)
    (noReturn : ∀ s ∈ block.getLast?, s.isReturn = false) : block = statements ∧ d = c := by
  rw [withReturn, current_bind] at run
  split at run
  · next begins =>
    obtain ⟨s, e, last, result⟩ := bind_ok.mp run
    obtain ⟨rfl, rfl⟩ := pure_ok.mp result
    obtain ⟨⟨tokens, ⟨-, returns⟩, -⟩, -⟩ := reads_returning reads input begins last
    rw [noReturn s (by simp)] at returns
    contradiction
  · exact pure_ok.mp run

end LuaFrontend.Grammar
