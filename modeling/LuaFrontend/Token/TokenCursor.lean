import LuaFrontend.Token.Lexer

set_option autoImplicit false

/-
A cursor as it is kept: the tokens in a vector, the number of the current one, and whether the end
token is among them. Tokens are taken from the lexer when somebody looks at them.
-/

namespace LuaFrontend

/-- Whether the pattern stands for a token that is kept. -/
def Pattern.acceptsRecord : Pattern → TokenRecord → Bool
  | kind k, t => t.kind == k
  | text s, t => !isFreelySpelled t.kind && t.text == s

/-- A lexer, the tokens that it gave and the comments among them. -/
structure TokenCursor where
  lexer : Lexer
  tokens : Array TokenRecord := #[]
  comments : Array TokenRecord := #[]
  index : Nat := 0
  isEndReached : Bool := false

namespace TokenCursor

open Machine (need loop)

abbrev Action := Machine TokenCursor

section Reading

/-- The lexer is called once. -/
def tokenize : Action TokenRecord := fun c =>
  (Lexer.call c.lexer).map fun (result, lexer) => (result, { c with lexer })

/-- Sets a comment aside, or keeps another token. -/
def pullRound : Action (Option Unit) := do
  let token ← tokenize
  if token.kind == .comment then
    modify fun c => { c with comments := c.comments.push token }
    return none
  else
    modify fun c =>
      { c with isEndReached := token.kind == .endOfInput, tokens := c.tokens.push token }
    return some ()

/-- Sets comments aside until there is another token, and keeps that. -/
def pull : Action Unit := loop (·.lexer.remaining) pullRound

/-- One token more, unless the end token is there. -/
def materialize : Action Unit := do
  unless (← get).isEndReached do pull

/-- One token more, unless there is one with this number, or the end token. -/
def fillRound (number : Nat) : Action (Option Unit) := do
  let c ← get
  if c.tokens.size ≤ number && !c.isEndReached then
    materialize
    return none
  else return some ()

/-- Goes on until there is a token with this number, or the end token. -/
def fill (number : Nat) : Action Unit :=
  loop (fun c => number + 1 - c.tokens.size) (fillRound number)

/-- The token with this number; past the end this is the end token. -/
def tokenAt (number : Nat) : Action TokenRecord := do
  fill number
  let c ← get
  let last ← need (sub? c.tokens.size 1)
  need c.tokens[min number last]?

def current : Action TokenRecord := do
  let c ← get
  need c.tokens[c.index]?

end Reading

section Requests

variable (o : Overflow)

/-- The token at a distance from the current one. -/
def lookahead (distance : Nat) : Action TokenRecord := do
  tokenAt (← need (o.add (← get).index distance))

def next : Action TokenRecord := lookahead o 1

/-- Moves to the next token. The end token is never left. -/
def advance : Action Unit := do
  let following ← need (o.add (← get).index 1)
  if (← get).tokens.size ≤ following then materialize
  if following < (← get).tokens.size then modify fun c => { c with index := following }

def matchesAny (patterns : List Pattern) : Action Bool := do
  let token ← current
  return patterns.any (·.acceptsRecord token)

def nextMatchesAny (patterns : List Pattern) : Action Bool := do
  let token ← next o
  return patterns.any (·.acceptsRecord token)

/-- Moves on if the current token matches, and says whether it did. -/
def consume (pattern : Pattern) : Action Bool := do
  if pattern.acceptsRecord (← current) then
    advance o
    return true
  else return false

/-- Moves behind the next token if that one matches, and says whether it did. -/
def consumeNext (pattern : Pattern) : Action Bool := do
  if pattern.acceptsRecord (← next o) then
    advance o
    advance o
    return true
  else return false

/-- Whether the current token ends the block it stands in. -/
def endsBlock : Action Bool := do
  if (← current).kind == .keyword then
    matchesAny (["else", "elseif", "end", "until"].map .text)
  else return false

/-- Takes the comments away. -/
def takeComments : Action (List TokenRecord) := do
  let comments := (← get).comments.toList
  modify fun c => { c with comments := #[] }
  return comments

end Requests

/-- At the first token that is no comment. -/
def ofLexer (lexer : Lexer) : Option (Except ErrorRecord TokenCursor) :=
  (materialize { lexer }).map fun (result, c) => result.map fun _ => c

def ofSource (dialect : Dialect) (source : String) : Option (Except ErrorRecord TokenCursor) :=
  ofLexer (.ofSource dialect source)

end TokenCursor
end LuaFrontend
