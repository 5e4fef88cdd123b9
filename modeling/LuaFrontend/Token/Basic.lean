import LuaFrontend.Source.Position

set_option autoImplicit false

namespace LuaFrontend

/-- Keywords are reserved words only; `and`, `or`, `not` and the named literals are kinds apart. -/
inductive TokenKind where
  | endOfInput
  | string
  | keyword
  | logicalOperator
  | identifier
  | number
  | symbol
  | boolean
  | nil
  | vararg
  | comment
deriving DecidableEq

/-- The word that messages use for a token of this kind. -/
def TokenKind.describe : TokenKind → String
  | string => "string"
  | keyword | logicalOperator => "keyword"
  | identifier => "identifier"
  | number => "number"
  | boolean => "boolean"
  | comment => "comment"
  | endOfInput | symbol | nil | vararg => "symbol"

/-- The text is exactly what stands in the source, quotes and brackets included. -/
structure Token where
  kind : TokenKind
  text : String
  start : Position
deriving DecidableEq

namespace Token

def span (t : Token) : Span := ⟨t.start.offset, t.start.offset + t.text.utf8ByteSize⟩

def isEnd (t : Token) : Bool := t.kind == .endOfInput

def isKeyword (t : Token) : Bool := t.kind == .keyword

def isComment (t : Token) : Bool := t.kind == .comment

/-- How a message quotes the token. -/
def near (t : Token) : String := if t.isEnd then "<eof>" else t.text

/-- The token is the keyword with this text. -/
def isWord (t : Token) (word : String) : Bool := t.isKeyword && t.text == word

/-- Whether the token ends the block it stands in without belonging to it. -/
def endsBlock (t : Token) : Bool :=
  t.isKeyword && ["else", "elseif", "end", "until"].contains t.text

end Token

/-- What a token can be compared with. -/
inductive Pattern where
  | kind (k : TokenKind)
  | text (s : String)

namespace Pattern

/-- Kinds whose tokens are spelled by the program, not by the language. -/
def isFreelySpelled : TokenKind → Bool
  | .identifier | .string | .number | .comment | .endOfInput => true
  | _ => false

/-- A text stands for the token that the language spells so, never for a name or a string. -/
def accepts : Pattern → Token → Bool
  | kind k, t => t.kind == k
  | text s, t => !isFreelySpelled t.kind && t.text == s

end Pattern
end LuaFrontend
