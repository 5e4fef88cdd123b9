import LuaFrontend.Event
import LuaFrontend.Source.Size
import LuaFrontend.Token.Tokenizer

set_option autoImplicit false

/-
A place in a sequence of tokens. Tokens are read when somebody looks at them and kept in order;
comments are set aside when they are met. An error is reported once, where it is met, and what was
read before it stays.
-/

namespace LuaFrontend

/-- The tokens that have been read are those passed, the current one and those ready. -/
structure Cursor where
  dialect : Dialect
  /-- The tokens before the current one, the latest first. -/
  passed : List Token
  current : Token
  /-- The tokens behind the current one that have been read. -/
  ready : List Token
  /-- What has not been read. -/
  pending : List (Except LexError Token)
  /-- The comments that were met and not taken away, the latest first. -/
  aside : List Token
  /-- Everything that happened, the latest first. -/
  journal : List Event
  /-- How many levels of nesting are open. -/
  depth : Nat := 0

namespace Cursor

/-- The current token and everything behind it. -/
def ahead (c : Cursor) : List (Except LexError Token) :=
  .ok c.current :: (c.ready.map .ok ++ c.pending)

/-- The number of the current token. -/
def index (c : Cursor) : Nat := c.passed.length

/-- How many tokens have been read, comments apart. -/
def buffered (c : Cursor) : Nat := c.passed.length + 1 + c.ready.length

/-- The last token that has been read. -/
def latest (c : Cursor) : Token := c.ready.getLastD c.current

/-- The end of the text has been read. -/
def isEndRead (c : Cursor) : Bool := c.latest.isEnd

/-- The comments set aside, in the order of the text. -/
def comments (c : Cursor) : List Token := c.aside.reverse

/-- The token this far behind the current one, or the latest if fewer have been read. -/
def peek (c : Cursor) (distance : Nat) : Token :=
  ((c.current :: c.ready)[distance]?).getD c.latest

def record (c : Cursor) (e : Event) : Cursor := { c with journal := e :: c.journal }

/-- Keeps a token that has been read. -/
def keep (c : Cursor) (t : Token) : Cursor :=
  if t.isComment then { c.record (.token t) with aside := t :: c.aside }
  else { c.record (.token t) with ready := c.ready ++ [t] }

/-- Reads from `pending` until this many tokens are ready or nothing is left. -/
def readFrom (wanted : Nat) :
    List (Except LexError Token) → Cursor → EStateM.Result LexError Cursor Unit
  | [], c => .ok () { c with pending := [] }
  | .ok t :: more, c =>
    if wanted ≤ c.ready.length then .ok () { c with pending := .ok t :: more }
    else readFrom wanted more (c.keep t)
  | .error e :: more, c =>
    if wanted ≤ c.ready.length then .ok () { c with pending := .error e :: more }
    else .error e { c with pending := more }

/-- What is done at a cursor: it moves, and fails where an error is met. -/
abbrev Action := EStateM LexError Cursor

/-- Makes this many tokens behind the current one ready. -/
def read (wanted : Nat) : Action Unit := fun c => readFrom wanted c.pending c

/-- The token this far behind the current one; past the end this is the end token. -/
def tokenAhead (distance : Nat) : Action Token := do
  read distance
  return (← get).peek distance

/-- The token with this number; past the end this is the end token. -/
def tokenAt (number : Nat) : Action Token := do
  let c ← get
  if number < c.index then return (c.passed[c.index - 1 - number]?).getD c.current
  else tokenAhead (number - c.index)

/-- The token behind the current one. -/
def next : Action Token := tokenAhead 1

/-- The token at a distance from the current one. Numbers of tokens are sizes: a sum that is none is
wrapped around. -/
def lookahead (distance : Nat) : Action Token := do
  tokenAt (((← get).index + distance) % sizeCount)

/-- One token further on, if one is ready. -/
def step (c : Cursor) : Cursor :=
  match c.ready with
  | [] => c
  | t :: more => { c with passed := c.current :: c.passed, current := t, ready := more }

/-- Moves to the next token. The end token is never left. -/
def advance : Action Unit := do
  read 1
  modify step

def hasText (c : Cursor) (text : String) : Bool := (Pattern.text text).accepts c.current

def matchesAny (c : Cursor) (patterns : List Pattern) : Bool := patterns.any (·.accepts c.current)

def nextMatchesAny (patterns : List Pattern) : Action Bool := do
  let t ← next
  return patterns.any (·.accepts t)

/-- Moves on if the current token matches, and says whether it did. -/
def consume (pattern : Pattern) : Action Bool := do
  if pattern.accepts (← get).current then
    advance
    return true
  else return false

/-- Moves behind the next token if that one matches, and says whether it did. -/
def consumeNext (pattern : Pattern) : Action Bool := do
  if pattern.accepts (← next) then
    advance
    advance
    return true
  else return false

/-- Takes the comments away. -/
def takeComments : Action (List Token) := do
  let comments := (← get).comments
  modify fun c => { c with aside := [] }
  return comments

/-- A text whose first token, comments apart, cannot be read. -/
structure Refusal where
  error : LexError
  journal : List Event

/-- At the first token that is no comment. -/
def opening (dialect : Dialect) (final : Token) (aside : List Token) :
    List (Except LexError Token) → Except Refusal Cursor
  | [] => .ok ⟨dialect, [], final, [], [], aside, .token final :: aside.map .token, 0⟩
  | .ok t :: more =>
    if t.isComment then opening dialect final (t :: aside) more
    else .ok ⟨dialect, [], t, [], more ++ [.ok final], aside, .token t :: aside.map .token, 0⟩
  | .error error :: _ => .error ⟨error, aside.map .token⟩

def ofLexed (dialect : Dialect) (lexed : Lexed) : Except Refusal Cursor :=
  opening dialect lexed.final [] lexed.items

def ofSource (dialect : Dialect) (source : String) : Except Refusal Cursor :=
  ofLexed dialect (Lexed.ofSource dialect source)

end Cursor
end LuaFrontend
