import LuaFrontend.Grammar.Statement

set_option autoImplicit false

/-
Programs. The grammar is tied together level by level: the forms of a level are read by the rules,
which read the forms of the next level, and at the last level nothing is read any more.
-/

namespace LuaFrontend

namespace Grammar

open LuaFrontend.Parser

/-- The rule for each form. -/
def rule (below : Below) : Below
  | .block => block below
  | .operand limit => operand below limit
  | .suffixed => suffixed below
  | .table => table below
  | .arguments => arguments below

/-- The forms with this many levels left. -/
def levels : Nat → Below
  | 0, _ => failHere .nestingTooDeep
  | depth + 1, form => rule (levels depth) form

/-- A block that goes on to the end of the text, with the comments that were met. -/
def chunk (depth : Nat) : Parser Chunk :=
  production .chunk do
    let block ← levels depth .block
    if (← current).isEnd then
      return ⟨block, (← Cursor.takeComments).map .ofToken⟩
    else unexpected

/-- The forms, with the open levels counted. Where the counter has reached the limit none is left, so
that what stands for the forms behind the last level is never read. -/
def counted (limit : Nat) : Nat → Below
  | 0, _ => nested limit (failHere .nestingTooDeep)
  | left + 1, form => nested limit (rule (counted limit left) form)

end Grammar

/-- What came out of a parse, and what happened on the way. -/
structure Report where
  events : List Event
  result : Except Error Chunk

/-- Parses a text and reports. Without a first token there is nothing to begin with. -/
def Report.ofSource (options : Options) (source : String) : Report :=
  match Cursor.ofSource options.toDialect source with
  | .error refusal => ⟨refusal.journal.reverse, .error (.lexical refusal.error)⟩
  | .ok cursor =>
    match Grammar.chunk options.maxDepth cursor with
    | .ok chunk c => ⟨c.journal.reverse, .ok chunk⟩
    | .error e c => ⟨c.journal.reverse, .error e⟩

/-- The program that a text is, or its first error. -/
def parse (options : Options) (source : String) : Except Error Chunk :=
  (Report.ofSource options source).result

end LuaFrontend
