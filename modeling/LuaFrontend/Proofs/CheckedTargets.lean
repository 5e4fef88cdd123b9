import LuaFrontend.Proofs.StatementReading

set_option autoImplicit false

/-
A stricter reading of programs. Whether targets can be assigned to is told behind the last one of
them; here each is looked at as soon as a comma follows it.
-/

namespace LuaFrontend

namespace Grammar

open LuaFrontend.Parser
open Outcome (IsInput)

/-- What a statement begins with, which a comma can only follow if it can be assigned to. -/
def checkTarget : Option Expression → Parser (Option Expression)
  | some e => do
    if (← get).hasText "," && !e.isAssignable then unexpected else return some e
  | none => return none

/-- The forms, for a block whose targets are checked. -/
def checkingTargets (below : Below) : Below
  | .suffixed => below .suffixed >>= checkTarget
  | .block => below .block
  | .operand limit => below (.operand limit)
  | .table => below .table
  | .arguments => below .arguments

/-- The forms with this many levels left, with checked targets. -/
def checkedLevels : Nat → Below
  | 0, _ => failHere .nestingTooDeep
  | depth + 1, .block => block (checkingTargets (checkedLevels depth))
  | depth + 1, .operand limit => operand (checkedLevels depth) limit
  | depth + 1, .suffixed => suffixed (checkedLevels depth)
  | depth + 1, .table => table (checkedLevels depth)
  | depth + 1, .arguments => arguments (checkedLevels depth)

/-- A block that goes on to the end of the text, with the comments that were met. -/
def chunkOf (block : Parser Block) : Parser Chunk :=
  production .chunk do
    let block ← block
    if (← current).isEnd then
      return ⟨block, (← Cursor.takeComments).map .ofToken⟩
    else unexpected

variable {below : Below} {c d : Cursor}

theorem checkTarget_ok {found : Option Expression} {result : Option Expression}
    (run : checkTarget found c = .ok result d) : result = found ∧ d = c := by
  cases found with
  | none => exact pure_ok.mp run
  | some e =>
    rw [checkTarget, get_bind] at run
    split at run
    · exact absurd run not_unexpected_ok
    · exact pure_ok.mp run

theorem checkTarget_error {found : Option Expression} {x : Error}
    (run : checkTarget found c = .error x d) :
    ∃ e, found = some e ∧ (unexpected : Parser (Option Expression)) c = .error x d := by
  cases found with
  | none => cases run
  | some e =>
    rw [checkTarget, get_bind] at run
    split at run
    · exact ⟨e, rfl, run⟩
    · cases run

theorem reads_checkingTargets (h : ReadsForms below) : ReadsForms (checkingTargets below)
  | .block => h .block
  | .operand limit => h (.operand limit)
  | .table => h .table
  | .arguments => h .arguments
  | .suffixed => by
    intro c result d input run
    obtain ⟨found, e, ofFound, checked⟩ := bind_ok.mp run
    obtain ⟨rfl, rfl⟩ := checkTarget_ok checked
    exact h .suffixed input ofFound

theorem reads_checkedLevels (depth : Nat) : ReadsForms (checkedLevels depth) := by
  induction depth with
  | zero => exact fun _ _ _ _ _ run => (not_failHere_ok run).elim
  | succ depth ih =>
    have rules := reads_rule ih
    intro form
    cases form with
    | block => exact reads_block (reads_checkingTargets ih)
    | operand limit => exact rules (.operand limit)
    | suffixed => exact rules .suffixed
    | table => exact rules .table
    | arguments => exact rules .arguments

end Grammar

/-- Parses a text with checked targets. -/
def parseChecked (options : Options) (source : String) : Except Error Chunk :=
  match Cursor.ofSource options.toDialect source with
  | .error refusal => .error (.lexical refusal.error)
  | .ok cursor =>
    match Grammar.chunkOf (Grammar.checkedLevels options.maxDepth .block) cursor with
    | .ok chunk _ => .ok chunk
    | .error e _ => .error e

end LuaFrontend
