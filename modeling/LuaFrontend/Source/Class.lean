import LuaFrontend.Source.Position

set_option autoImplicit false

namespace LuaFrontend

/-- Space, tab, vertical tab and form feed: white space inside a line. -/
def isBlank (c : Char) : Bool := c == ' ' || c == '\t' || c == '\x0b' || c == '\x0c'

/-- White space between lexemes, line breaks included. -/
def isSpace (c : Char) : Bool := isBlank c || isLineBreak c

theorem mem_of_isSpace {c : Char} (h : isSpace c) :
    c ∈ [' ', '\t', '\x0b', '\x0c', '\n', '\r'] := by
  simp only [isSpace, isBlank, isLineBreak, Bool.or_eq_true, beq_iff_eq] at h
  simp only [List.mem_cons, List.not_mem_nil, or_false]
  simpa only [or_assoc] using h

/-- A test that no white space passes. -/
theorem eq_false_of_isSpace {test : Char → Bool} {c : Char} (h : isSpace c)
    (fails : [' ', '\t', '\x0b', '\x0c', '\n', '\r'].all (!test ·)) : test c = false := by
  have other := List.all_eq_true.mp fails c (mem_of_isSpace h)
  rwa [Bool.not_eq_true'] at other

theorem ne_of_isSpace {c d : Char} (h : isSpace c) (other : isSpace d = false) : c ≠ d := by
  rintro rfl
  rw [other] at h
  cases h

def isDigit (c : Char) : Bool := c.isDigit

def isHexDigit (c : Char) : Bool :=
  c.isDigit || ('a' ≤ c && c ≤ 'f') || ('A' ≤ c && c ≤ 'F')

/-- Letters, the underscore and, in the extended alphabet, everything outside ASCII. -/
def isNameStart (extended : Bool) (c : Char) : Bool :=
  c.isAlpha || c == '_' || (extended && 0x80 ≤ c.val)

def isNamePart (extended : Bool) (c : Char) : Bool := isNameStart extended c || isDigit c

end LuaFrontend
