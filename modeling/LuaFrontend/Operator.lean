set_option autoImplicit false

namespace LuaFrontend

inductive UnaryOperator where
  | negate
  | not
  | length
  | bitwiseNot
deriving DecidableEq

namespace UnaryOperator

def text : UnaryOperator → String
  | negate => "-"
  | not => "not"
  | length => "#"
  | bitwiseNot => "~"

def all : List UnaryOperator := [negate, not, length, bitwiseNot]

def ofText? (text : String) : Option UnaryOperator := all.find? (·.text == text)

/-- All of them bind tighter than `*` and looser than `^`. -/
def precedence : Nat := 12

end UnaryOperator

inductive BinaryOperator where
  | or
  | and
  | less
  | greater
  | lessEqual
  | greaterEqual
  | equal
  | notEqual
  | bitwiseOr
  | bitwiseXor
  | bitwiseAnd
  | shiftLeft
  | shiftRight
  | concat
  | add
  | subtract
  | multiply
  | divide
  | floorDivide
  | modulo
  | power
deriving DecidableEq

namespace BinaryOperator

def text : BinaryOperator → String
  | or => "or"
  | and => "and"
  | less => "<"
  | greater => ">"
  | lessEqual => "<="
  | greaterEqual => ">="
  | equal => "=="
  | notEqual => "~="
  | bitwiseOr => "|"
  | bitwiseXor => "~"
  | bitwiseAnd => "&"
  | shiftLeft => "<<"
  | shiftRight => ">>"
  | concat => ".."
  | add => "+"
  | subtract => "-"
  | multiply => "*"
  | divide => "/"
  | floorDivide => "//"
  | modulo => "%"
  | power => "^"

def all : List BinaryOperator :=
  [or, and, less, greater, lessEqual, greaterEqual, equal, notEqual, bitwiseOr, bitwiseXor,
    bitwiseAnd, shiftLeft, shiftRight, concat, add, subtract, multiply, divide, floorDivide, modulo,
    power]

def ofText? (text : String) : Option BinaryOperator := all.find? (·.text == text)

/-- The higher, the tighter. -/
def precedence : BinaryOperator → Nat
  | or => 1
  | and => 2
  | less | greater | lessEqual | greaterEqual | equal | notEqual => 3
  | bitwiseOr => 4
  | bitwiseXor => 5
  | bitwiseAnd => 6
  | shiftLeft | shiftRight => 7
  | concat => 9
  | add | subtract => 10
  | multiply | divide | floorDivide | modulo => 11
  | power => 14

/-- Whether a chain of the operator groups from the right. -/
def isRightAssociative : BinaryOperator → Bool
  | concat | power => true
  | _ => false

/-- What an operator has to exceed to belong to the right operand. -/
def rightLimit (operator : BinaryOperator) : Nat :=
  if operator.isRightAssociative then operator.precedence - 1 else operator.precedence

end BinaryOperator
end LuaFrontend
