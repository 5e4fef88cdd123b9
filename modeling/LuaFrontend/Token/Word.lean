import LuaFrontend.Options
import LuaFrontend.Token.Basic

set_option autoImplicit false

namespace LuaFrontend

def reservedWords : List String :=
  ["do", "if", "in", "end", "for", "else", "then", "break", "local", "until", "while", "elseif",
    "repeat", "return", "function", "goto"]

def isReserved (word : String) : Bool := reservedWords.contains word

/-- The kind of token that a name is. Under contextual `goto` that word is an ordinary name. -/
def wordKind (contextualGoto : Bool) (word : String) : TokenKind :=
  if word == "and" || word == "or" || word == "not" then .logicalOperator
  else if word == "true" || word == "false" then .boolean
  else if word == "nil" then .nil
  else if word == "goto" && contextualGoto then .identifier
  else if isReserved word then .keyword
  else .identifier

end LuaFrontend
