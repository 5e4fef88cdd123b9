import LuaFrontend.Options

set_option autoImplicit false

namespace LuaFrontend.Lexeme

/-- Longer ones come first. -/
def symbols (dialect : Dialect) : List (List Char) :=
  [['.', '.', '.'], ['.', '.'], ['=', '='], ['<', '='], ['>', '='], ['~', '=']] ++
  (if dialect.bitwiseOperators then [['<', '<'], ['>', '>']] else []) ++
  (if dialect.integerDivision then [['/', '/']] else []) ++
  (if dialect.labels then [[':', ':']] else []) ++
  [['+'], ['-'], ['*'], ['/'], ['%'], ['^'], ['#'], ['<'], ['>'], ['='], ['('], [')'], ['{'], ['}'],
    ['['], [']'], [';'], [':'], [','], ['.']] ++
  (if dialect.bitwiseOperators then [['&'], ['|'], ['~']] else [])

/-- The symbol at the front of the text. -/
def symbol? (dialect : Dialect) (s : List Char) : Option (List Char) :=
  (symbols dialect).find? (·.isPrefixOf s)

end LuaFrontend.Lexeme
