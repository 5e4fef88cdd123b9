import LuaFrontend.Source.Class
import LuaFrontend.Source.Size
import LuaFrontend.Source.Utf8

set_option autoImplicit false

/-
A reading head over the bytes of a text. It knows its line, can mark where a piece begins, and
answers questions about bytes ahead; every question about a byte past the end is answered by no.
-/

namespace LuaFrontend

/-- Nothing is known of a byte but its value; only `extended` says which bytes are letters. -/
structure Scanner where
  source : Array UInt8
  extended : Bool
  position : Nat := 0
  mark : Nat := 0
  line : Nat := 1
  lineStart : Nat := 0

namespace Scanner

/-- What can be asked about the byte at some distance ahead. -/
inductive Question where
  | pastEnd
  | blank
  | lineFeed
  | carriageReturn
  | lineBreak
  | breakPair
  | digit
  | hexDigit
  | nameStart
  | namePart
deriving DecidableEq

def Question.all : List Question :=
  [.pastEnd, .blank, .lineFeed, .carriageReturn, .lineBreak, .breakPair, .digit, .hexDigit,
    .nameStart, .namePart]

/-- At the beginning of a text. -/
def ofString (text : String) (extended : Bool) : Scanner :=
  { source := text.toUTF8.data, extended }

def peekAt (s : Scanner) (distance : Nat) : Option UInt8 := s.source[s.position + distance]?

def peek (s : Scanner) : Option UInt8 := s.peekAt 0

def isPastEnd (s : Scanner) (distance : Nat) : Bool := s.source.size ≤ s.position + distance

/-- How many bytes are ahead. -/
def remaining (s : Scanner) : Nat := s.source.size - s.position

/-- The bytes from offset `start` up to, not including, `stop`. -/
def slice (s : Scanner) (start stop : Nat) : List UInt8 := (s.source.extract start stop).toList

/-- Whether there is a byte at this distance, and it is of the class. -/
def isAt (s : Scanner) (test : Char → Bool) (distance : Nat) : Bool :=
  (s.peekAt distance).any (test ∘ Char.ofUInt8)

/-- No byte of any class is past the end. -/
theorem lt_size_of_isAt {s : Scanner} {test : Char → Bool} {distance : Nat}
    (h : s.isAt test distance) : s.position + distance < s.source.size := by
  rw [isAt, peekAt, Option.any_eq_true] at h
  obtain ⟨b, here, -⟩ := h
  exact (Array.getElem?_eq_some_iff.mp here).1

/-- How many bytes of the class are there from this distance on, `count` of which are known. -/
def countWhile (s : Scanner) (test : Char → Bool) (distance count : Nat) : Nat :=
  if s.isAt test (distance + count) then countWhile s test distance (count + 1) else count
termination_by s.remaining - (distance + count)
decreasing_by
  have inside := lt_size_of_isAt ‹_›
  rw [remaining]
  omega

/-- Two different line break characters follow each other. -/
def isBreakPairAt (s : Scanner) (distance : Nat) : Bool :=
  match s.peekAt distance, s.peekAt (distance + 1) with
  | some a, some b => isBreakPair (.ofUInt8 a) (.ofUInt8 b)
  | _, _ => false

def holds (s : Scanner) (distance : Nat) : Question → Bool
  | .pastEnd => s.isPastEnd distance
  | .blank => s.isAt isBlank distance
  | .lineFeed => s.isAt (· == '\n') distance
  | .carriageReturn => s.isAt (· == '\r') distance
  | .lineBreak => s.isAt isLineBreak distance
  | .breakPair => s.isBreakPairAt distance
  | .digit => s.isAt isDigit distance
  | .hexDigit => s.isAt isHexDigit distance
  | .nameStart => s.isAt (isNameStart s.extended) distance
  | .namePart => s.isAt (isNamePart s.extended) distance

/-- The questions with the answer yes. -/
def classify (s : Scanner) (distance : Nat) : List Question :=
  Question.all.filter (s.holds distance)

/-- A piece begins here. -/
def setMark (s : Scanner) : Scanner := { s with mark := s.position }

/-- The range from the mark to the head. -/
def captured (s : Scanner) : Span := ⟨s.mark, s.position⟩

/-- The text from the mark to the head. -/
def capturedText (s : Scanner) : String :=
  String.ofList (Utf8.decodeLossy (s.slice s.mark s.position))

/-- Moves the head without looking for line ends, at most to the end of the text. -/
def advanceBy (s : Scanner) (count : Nat) : Scanner :=
  { s with position := min (s.position + count) s.source.size }

def advance (s : Scanner) : Scanner := s.advanceBy 1

/-- Moves past one line end, if there is one here, and says whether there was. -/
def consumeLineEnd (s : Scanner) : Bool × Scanner :=
  if s.holds 0 .lineBreak then
    let ahead := s.advanceBy (if s.holds 0 .breakPair then 2 else 1)
    (true, { ahead with line := s.line + 1, lineStart := ahead.position })
  else (false, s)

/-- Moves at most `count` bytes, as long as the test holds. -/
def scanUpTo (test : Scanner → Bool) : Nat → Scanner → Scanner
  | 0, s => s
  | count + 1, s => if test s then scanUpTo test count { s with position := s.position + 1 } else s

/-- Moves as long as the test holds, at most to the end of the text. -/
def scanWhile (s : Scanner) (test : Scanner → Bool) : Scanner :=
  scanUpTo test (s.source.size - s.position) s

/-- Moves until the test holds, at most to the end of the text. -/
def scanUntil (s : Scanner) (test : Scanner → Bool) : Scanner := s.scanWhile (!test ·)

/-- Whether the text goes on with these characters. -/
def startsWith (s : Scanner) (text : String) : Bool :=
  text.toUTF8.data.toList.isPrefixOf (s.slice s.position s.source.size)

/-- Bytes of the character at the head, as its first byte announces; 0 at the end. -/
def charWidth (s : Scanner) : Nat := (s.peek.map Utf8.announcedWidth).getD 0

/-- The character at the head, unless the head is at the end or inside a character. -/
def peekChar (s : Scanner) : Option Char :=
  (Utf8.decode? (s.slice s.position (s.position + s.charWidth))).bind List.head?

/-- The bytes from `start` to `stop`, if there are such. -/
def slice? (s : Scanner) (start stop : Nat) : Option (List UInt8) :=
  if start ≤ stop ∧ stop ≤ s.source.size then some (s.slice start stop) else none

/-- The text from the mark to the head, if the slice is in range. -/
def capturedText? (s : Scanner) : Option String := do
  return String.ofList (Utf8.decodeLossy (← s.slice? s.mark s.position))

/-- Whether the text goes on with these characters, if the slice is in range. -/
def startsWith? (s : Scanner) (text : String) : Option Bool := do
  return text.toUTF8.data.toList.isPrefixOf (← s.slice? s.position s.source.size)

/-- The character at the head, if the slice is in range. -/
def peekChar? (s : Scanner) : Option (Option Char) := do
  let bytes ← s.slice? s.position (min (s.position + s.charWidth) s.source.size)
  return (Utf8.decode? bytes).bind List.head?

end Scanner
end LuaFrontend
