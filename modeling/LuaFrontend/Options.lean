set_option autoImplicit false

namespace LuaFrontend

/-- The parts of the language that not every version has. -/
structure Dialect where
  /-- Labels, written with `::` on both sides. -/
  labels : Bool := true
  /-- A `goto` is read as a name, and taken for a jump where a name follows it. -/
  contextualGoto : Bool := true
  /-- Floor division, `//`. -/
  integerDivision : Bool := true
  /-- The symbols `&`, `|`, `~`, `<<` and `>>`. -/
  bitwiseOperators : Bool := true
  /-- A number may end in `i`. -/
  imaginaryNumbers : Bool := true
  /-- An integer may end in `u`, `ll` or `ull`. -/
  integerSuffixes : Bool := true
  /-- Names may hold characters outside ASCII. -/
  extendedIdentifiers : Bool := true
deriving DecidableEq

/-- Levels that may be open at once unless told otherwise. -/
def defaultDepth : Nat := 200

/-- A dialect, and a limit for programs in it. -/
structure Options extends Dialect where
  /-- The number of levels that may be open at once. Blocks, operands, suffixed expressions,
  argument lists and tables take one each. -/
  maxDepth : Nat := defaultDepth
deriving DecidableEq

namespace Options

/-- Everything switched on. -/
def full : Options := {}

/-- What programs are parsed with unless told otherwise: `goto` is always reserved. -/
def forParser : Options := { contextualGoto := false }

/-- The language of version 5.1: no labels, floor division, bitwise operators or number suffixes. -/
def lua51 : Options where
  labels := false
  integerDivision := false
  bitwiseOperators := false
  imaginaryNumbers := false
  integerSuffixes := false

end Options
end LuaFrontend
