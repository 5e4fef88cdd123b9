import LuaFrontend.Lexeme.Part
import LuaFrontend.Source.Class

set_option autoImplicit false

namespace LuaFrontend.Lexeme

def isEqualsSign (c : Char) : Bool := c == '='

def opening (level : Nat) : List Char := '[' :: List.replicate level '=' ++ ['[']

def closing (level : Nat) : List Char := ']' :: List.replicate level '=' ++ [']']

/-- The level of the long bracket that opens here, if one does. -/
def openingLevel? : List Char → Option Nat
  | '[' :: s =>
    match s.dropWhile isEqualsSign with
    | '[' :: _ => some (s.takeWhile isEqualsSign).length
    | _ => none
  | _ => none

/-- Everything up to the end of the first occurrence of `close`. -/
def through (close : List Char) : List Char → Part
  | [] => .missing []
  | c :: s =>
    if close.isPrefixOf (c :: s) then ⟨(c :: s).take close.length, (c :: s).drop close.length, true⟩
    else (through close s).push [c]

/-- A long bracket of the level, from its opening on. -/
def bracketed (level : Nat) (s : List Char) : Part :=
  (through (closing level) (s.drop (opening level).length)).push (s.take (opening level).length)

/-- A bracket and equals signs that open nothing. -/
def brokenOpening : List Char → Part
  | [] => .missing []
  | c :: s => ((Part.run isEqualsSign s).push [c]).require false

/-- A comment that goes on to the end of its line. -/
def lineComment (s : List Char) : Part := Part.run (!isLineBreak ·) s

theorem text_through (close : List Char) (s : List Char) : (through close s).text = s := by
  induction s with
  | nil => rfl
  | cons c s ih =>
    rw [through]
    split
    · exact List.take_append_drop _ _
    · rw [Part.text_push, ih]
      rfl

theorem text_bracketed (level : Nat) (s : List Char) : (bracketed level s).text = s := by
  rw [bracketed, Part.text_push, text_through, List.take_append_drop]

theorem text_brokenOpening (s : List Char) : (brokenOpening s).text = s := by
  cases s with
  | nil => rfl
  | cons c s => simp [brokenOpening]

theorem text_lineComment (s : List Char) : (lineComment s).text = s := Part.text_run _ s

end LuaFrontend.Lexeme
