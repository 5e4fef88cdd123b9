import LuaFrontend.Token.Cursor
import LuaFrontend.Tree.Basic

set_option autoImplicit false

/-
Parsers move a cursor and fail with an error. An error leaves the cursor where it was met, so that
the journal shows what happened up to it.
-/

namespace LuaFrontend

abbrev Parser := EStateM Error Cursor

namespace Parser

/-- An action at the cursor; its error is a lexical one. -/
def act {α : Type} (action : Cursor.Action α) : Parser α := fun c =>
  match action c with
  | .ok a c => .ok a c
  | .error e c => .error (.lexical e) c

instance : MonadLift Cursor.Action Parser := ⟨act⟩

/-- The body inside a production, which is left whether the body succeeds or fails. -/
def production {α : Type} (p : Production) (body : Parser α) : Parser α := fun c =>
  match body (c.record (.enter p)) with
  | .ok a c => .ok a (c.record (.exit p))
  | .error e c => .error e (c.record (.exit p))

/-- Fails at the current token. -/
def failHere {α : Type} (fault : SyntaxFault) : Parser α := do
  let token := (← get).current
  throw (.grammatical ⟨fault, token.start, token.near⟩)

/-- The body one level further in, unless as many levels are open as may be. The level is left
whether the body succeeds or fails. -/
def nested {α : Type} (limit : Nat) (body : Parser α) : Parser α := fun c =>
  if limit ≤ c.depth then failHere .nestingTooDeep c
  else
    match body { c with depth := c.depth + 1 } with
    | .ok a d => .ok a { d with depth := d.depth - 1 }
    | .error e d => .error e { d with depth := d.depth - 1 }

/-- Fails because something else has to stand here. -/
def expected {α : Type} (what : Expectation) : Parser α := failHere (.expected what)

/-- Fails because the current token cannot stand here. The message quotes the one behind it. -/
def unexpected {α : Type} : Parser α := do
  let token := (← get).current
  let following ← Cursor.next
  throw (.grammatical ⟨.unexpected token.kind token.text, token.start, following.near⟩)

/-- The current token. -/
def current : Parser Token := return (← get).current

/-- Takes the token that the language spells so, if it is the current one. -/
def takes (text : String) : Parser Bool := Cursor.consume (.text text)

/-- Takes the token that the language spells so. -/
def expect (text : String) : Parser Unit := do
  unless ← takes text do expected (.text text)

/-- Takes a name. -/
def identifier : Parser Identifier := do
  let token ← current
  if token.kind = .identifier then
    Cursor.advance
    return .ofToken token
  else expected .name

/-- What an optional parser gives, which must not be missing. -/
def required {α : Type} (what : Expectation) (part : Parser (Option α)) : Parser α := do
  match ← part with
  | some a => return a
  | none => expected what

/-- The item behind the token that the language spells so, if that is the current one. -/
def behind {α : Type} (text : String) (item : Parser α) : Parser (Option α) := do
  if ← takes text then return some (← item) else return none

/-- The parts that a step gives, at most one for each item of `bound`. -/
def manyUpTo {α β : Type} (step : Parser (Option α)) : List β → Parser (List α)
  | [] => return []
  | _ :: bound => do
    match ← step with
    | some a => return a :: (← manyUpTo step bound)
    | none => return []

/-- The parts that a step gives until it gives none. Every part takes a token, and the end token
cannot be taken, so the bound is never reached. -/
def many {α : Type} (step : Parser (Option α)) : Parser (List α) := do
  manyUpTo step (← get).ahead

/-- Builds on `start` until a step builds no more, at most once for each item of `bound`. -/
def growUpTo {α β : Type} (step : α → Parser (Option α)) : List β → α → Parser α
  | [], start => return start
  | _ :: bound, start => do
    match ← step start with
    | some a => growUpTo step bound a
    | none => return start

/-- Builds on `start` until a step builds no more. Every step that does takes a token. -/
def grow {α : Type} (step : α → Parser (Option α)) (start : α) : Parser α := do
  growUpTo step (← get).ahead start

/-- One item behind each of the commas that follow. -/
def afterCommas {α : Type} (item : Parser α) : Parser (List α) := many (behind "," item)

/-- One item or more, with commas between them. -/
def commaSeparated {α : Type} (item : Parser α) : Parser (List α) := do
  return (← item) :: (← afterCommas item)

end Parser

/-- The parts of a program that take a level of nesting. -/
inductive Form where
  | block
  /-- An operand, with all operators that bind tighter than the limit. -/
  | operand (limit : Nat)
  /-- A name or a group, with what is written behind it. -/
  | suffixed
  | table
  | arguments
deriving DecidableEq

/-- What a form is read as. An operand or a suffixed expression may be absent. -/
abbrev Form.Tree : Form → Type
  | block => Block
  | operand _ => Option Expression
  | suffixed => Option Expression
  | table => List TableField
  | arguments => List Expression

/-- How the forms one level down are read. -/
abbrev Below := (form : Form) → Parser form.Tree

end LuaFrontend
