import LuaFrontend.Error
import LuaFrontend.Source.Scanner

set_option autoImplicit false

/-
The lexer as it goes over the bytes. It moves a scanner byte by byte, looks no further than at bytes
ahead, and captures what lies between the mark and the head; lines are counted only by the move that
takes a line end.
-/

namespace LuaFrontend

/-- Where a message says that something is. -/
structure Location where
  line : Nat
  column : Nat
  offset : Nat
deriving DecidableEq

/-- The location of an offset in the line that begins at `lineStart`, unless it is before that. -/
def Location.of? (line lineStart offset : Nat) : Option Location := do
  return ⟨line, (← sub? offset lineStart) + 1, offset⟩

/-- A token as it is kept. -/
structure TokenRecord where
  kind : TokenKind
  text : String
  span : Span
  line : Nat
  lineStart : Nat
  isKeyword : Bool
deriving DecidableEq

/-- A fault as it is kept, with the line on which a long bracket was opened. -/
inductive FaultRecord where
  | malformedNumber
  | unfinishedString
  | unfinishedLongString (startLine : Nat)
  | unfinishedLongComment (startLine : Nat)
  | invalidLongStringDelimiter
  | unexpectedCharacter (c : Char)
deriving DecidableEq

/-- An error as it is kept. -/
structure ErrorRecord where
  fault : FaultRecord
  location : Location
  near : String
deriving DecidableEq

/-- What a machine does: it gives a value or an error, and changes its state either way. It gives
nothing where an access is out of range, a sum is trapped or a loop does not end. -/
abbrev Machine (σ : Type) := ExceptT ErrorRecord (StateT σ Option)

/-- What is needed has to be there. -/
def Machine.need {σ α : Type} (a? : Option α) : Machine σ α := fun s => a?.map fun a => (.ok a, s)

/-- Repeats a round until it gives a value. A round that gives none has to leave less to do than there
was; the loop does not end if one leaves as much. -/
def Machine.loop {σ α : Type} (left : σ → Nat) (round : Machine σ (Option α)) : Machine σ α :=
  fun s =>
    match round s with
    | some (.ok none, next) => if left next < left s then loop left round next else none
    | some (.ok (some a), next) => some (.ok a, next)
    | some (.error e, next) => some (.error e, next)
    | none => none
termination_by s => left s

/-- A scanner that is asked for tokens, and where the token that is read begins. -/
structure Lexer where
  scanner : Scanner
  dialect : Dialect
  started : Bool := false
  tokenLine : Nat := 1
  tokenLineStart : Nat := 0

namespace Lexer

open Machine (need loop)

/-- At the beginning of a text. -/
def ofSource (dialect : Dialect) (source : String) : Lexer :=
  { scanner := .ofString source dialect.extendedIdentifiers, dialect }

/-- How many bytes are ahead. -/
def remaining (l : Lexer) : Nat := l.scanner.remaining

abbrev Action := Machine Lexer

section Steps

variable {α : Type}

/-- The scanner. -/
def head : Action Scanner := return (← get).scanner

/-- Moves the scanner. -/
def scan (move : Scanner → Scanner) : Action Unit :=
  modify fun l => { l with scanner := move l.scanner }

/-- Takes a line end, if there is one, and says whether there was. -/
def consumeLineEnd : Action Bool := do
  let (taken, next) := (← head).consumeLineEnd
  scan fun _ => next
  return taken

/-- Fails where the head is. -/
def fail (fault : FaultRecord) : Action α := do
  let s ← head
  let location ← need (Location.of? s.line s.lineStart s.position)
  let near ← need s.capturedText?
  throw ⟨fault, location, near⟩

/-- The token from the mark to the head. -/
def makeToken (kind : TokenKind) : Action TokenRecord := do
  let l ← get
  let text ← need l.scanner.capturedText?
  return ⟨kind, text, l.scanner.captured, l.tokenLine, l.tokenLineStart, kind == .keyword⟩

end Steps

section Gaps

/-- Passes a blank or a line end, if there is one. -/
def spaceRound : Action (Option Unit) := do
  if (← head).holds 0 .blank then
    scan (·.advance)
    return none
  else if ← consumeLineEnd then return none
  else return some ()

/-- Passes the white space ahead. -/
def skipSpace : Action Unit := loop remaining spaceRound

/-- Passes a byte order mark and a line for the shell. -/
def skipPreamble : Action Unit := do
  if ← need ((← head).startsWith? "\uFEFF") then scan (·.advanceBy 3)
  if ← need ((← head).startsWith? "#!") then scan (·.scanUntil (·.holds 0 .lineBreak))

end Gaps

section Names

def readName : Action TokenRecord := do
  scan (·.scanWhile (·.holds 0 .namePart))
  let word ← need (← head).capturedText?
  makeToken (wordKind (← get).dialect.contextualGoto word)

end Names

section Strings

/-- The byte behind a backslash, or the line end. Behind a `z` white space is passed as well. -/
def readEscape : Action Unit := do
  if (← head).isPastEnd 0 then fail .unfinishedString
  else if ← consumeLineEnd then return ()
  else
    let skips := (← head).isAt (· == 'z') 0
    scan (·.advance)
    if skips then skipSpace

/-- The next byte of a string, which may end it. -/
def stringRound (quote : Char) : Action (Option TokenRecord) := do
  let s ← head
  if s.isPastEnd 0 || s.isAt isLineBreak 0 then fail .unfinishedString
  else if s.isAt (· == '\\') 0 then
    scan (·.advance)
    readEscape
    return none
  else if s.isAt (· == quote) 0 then
    scan (·.advance)
    return some (← makeToken .string)
  else
    scan (·.advance)
    return none

/-- A string from behind its opening quote, byte by byte. -/
def readStringRest (quote : Char) : Action TokenRecord := loop remaining (stringRound quote)

def readString (quote : Char) : Action TokenRecord := do
  scan (·.advance)
  readStringRest quote

end Strings

section Brackets

/-- How many equals signs there are from this distance on. -/
def countSigns (s : Scanner) (distance : Nat) : Nat := s.countWhile (· == '=') distance 0

/-- How many signs there are in the long bracket that opens at this distance, if one does. -/
def bracketDepth? (s : Scanner) (distance : Nat) : Option Nat :=
  if s.isAt (· == '[') distance then
    let depth := countSigns s (distance + 1)
    if s.isAt (· == '[') (distance + 1 + depth) then some depth else none
  else none

/-- Passes the bracket that closes. If one does not, only its first byte is passed; line ends are
passed whole. -/
def bracketRound (depth : Nat) : Action (Option Bool) := do
  let s ← head
  if s.isPastEnd 0 then return some false
  else if s.isAt (· == ']') 0 then
    let run := countSigns s 1
    if run == depth && s.isAt (· == ']') (1 + run) then
      scan (·.advanceBy (depth + 2))
      return some true
    else
      scan (·.advance)
      return none
  else if s.isAt isLineBreak 0 then
    let _ ← consumeLineEnd
    return none
  else
    scan (·.advance)
    return none

/-- Goes on to the bracket that closes, or to the end. -/
def closeBracket (depth : Nat) : Action Bool := loop remaining (bracketRound depth)

/-- A long bracket from its opening on. It says whether the bracket is closed. -/
def readLongBracket (depth : Nat) : Action Bool := do
  scan (·.advanceBy (depth + 2))
  closeBracket depth

def readLongString : Action TokenRecord := do
  let s ← head
  match bracketDepth? s 0 with
  | none =>
    scan (·.advance)
    scan (·.scanWhile (·.isAt (· == '=') 0))
    fail .invalidLongStringDelimiter
  | some depth =>
    if ← readLongBracket depth then makeToken .string else fail (.unfinishedLongString s.line)

def readComment : Action TokenRecord := do
  scan (·.advanceBy 2)
  let s ← head
  match bracketDepth? s 0 with
  | none =>
    scan (·.scanUntil (·.holds 0 .lineBreak))
    makeToken .comment
  | some depth =>
    if ← readLongBracket depth then makeToken .comment else fail (.unfinishedLongComment s.line)

end Brackets

section Numbers

open Lexeme (isPoint isSign isHexMark isImaginaryUnit isUnsignedMark isLongMark)

/-- Takes one byte if it is of the class, and says whether it is. -/
def takeIf (test : Char → Bool) : Action Bool := do
  let taken := (← head).isAt test 0
  scan fun s => if taken then s.advance else s
  return taken

/-- Takes bytes as long as they are of the class. -/
def takeRun (test : Char → Bool) : Action Unit := scan (·.scanWhile (·.isAt test 0))

/-- No point may follow; if one does, it is taken. -/
def refusePoint : Action Unit := do
  if ← takeIf isPoint then fail .malformedNumber

/-- At least one digit. -/
def takeDigits : Action Unit := do
  if (← head).isAt isDigit 0 then takeRun isDigit else fail .malformedNumber

/-- A letter, a sign or none, and digits, or nothing. It says whether there was an exponent. -/
def readExponent (isMark : Char → Bool) : Action Bool := do
  refusePoint
  if ← takeIf isMark then
    let _ ← takeIf isSign
    takeDigits
    refusePoint
    return true
  else return false

/-- The mark of an unsigned or a long integer, or both. It says whether there was any. -/
def readIntegerSuffix : Action Bool := do
  if (← get).dialect.integerSuffixes then
    let unsigned ← takeIf isUnsignedMark
    if (← head).isAt isLongMark 0 then
      if (← head).isAt isLongMark 1 then
        scan (·.advanceBy 2)
        return true
      else
        scan (·.advance)
        fail .malformedNumber
    else return unsigned
  else return false

/-- An imaginary unit and an integer suffix, the latter behind plain integers only. -/
def readNumberSuffixes (isFractional : Bool) : Action Unit := do
  let enabled := (← get).dialect.imaginaryNumbers
  let imaginary ← takeIf fun c => enabled && isImaginaryUnit c
  if (← readIntegerSuffix) && (isFractional || imaginary) then fail .malformedNumber

/-- A point and digits behind it, or nothing. It says whether there was a point. -/
def takeFraction : Action Bool := do
  if ← takeIf isPoint then
    takeRun isDigit
    return true
  else return false

def readDecimalNumber : Action Unit := do
  takeRun isDigit
  let fractional ← takeFraction
  let exponent ← readExponent fun c => c == 'e' || c == 'E'
  readNumberSuffixes (fractional || exponent)

/-- Digits, and how many there were. -/
def countHexDigits : Action Nat := do
  let start := (← head).position
  takeRun isHexDigit
  need (sub? (← head).position start)

/-- A point and digits behind it, or nothing. It says whether there was a point, and how many digits
there were. -/
def countFraction : Action (Bool × Nat) := do
  if ← takeIf isPoint then return (true, ← countHexDigits) else return (false, 0)

def readHexNumber : Action Unit := do
  scan (·.advanceBy 2)
  let s ← head
  if s.isAt isHexDigit 0 || s.isAt isPoint 0 then
    let whole ← countHexDigits
    let (fractional, fraction) ← countFraction
    if whole + fraction == 0 then fail .malformedNumber
    else
      let exponent ← readExponent fun c => c == 'p' || c == 'P'
      readNumberSuffixes (fractional || exponent)
  else fail .malformedNumber

def readNumber : Action TokenRecord := do
  let s ← head
  if s.isAt (· == '0') 0 && s.isAt isHexMark 1 then readHexNumber
  else readDecimalNumber
  makeToken .number

end Numbers

section Symbols

/-- The token of this many bytes. -/
def takeSymbol (width : Nat) (kind : TokenKind) : Action TokenRecord := do
  scan (·.advanceBy width)
  makeToken kind

/-- A sign, or the same sign twice if that is a symbol too. -/
def oneOrTwo (sign : Char) (enabled : Bool) : Action TokenRecord := do
  takeSymbol (if enabled && (← head).isAt (· == sign) 1 then 2 else 1) .symbol

/-- A comparison, or a shift if there are such. -/
def angle (sign : Char) : Action TokenRecord := do
  let l ← get
  takeSymbol
    (if l.scanner.isAt (· == '=') 1 then 2
      else if l.scanner.isAt (· == sign) 1 && l.dialect.bitwiseOperators then 2
      else 1)
    .symbol

/-- One, two or three points, or a number that begins with one. -/
def readPoint : Action TokenRecord := do
  let s ← head
  if s.holds 1 .digit then readNumber
  else if ← need (s.startsWith? "...") then takeSymbol 3 .vararg
  else if ← need (s.startsWith? "..") then takeSymbol 2 .symbol
  else takeSymbol 1 .symbol

/-- Fails at the character ahead, which is passed whole. -/
def unexpectedCharacter : Action TokenRecord := do
  let s ← head
  let c ← need s.peekChar?
  let location ← need (Location.of? s.line s.lineStart s.position)
  scan fun s => s.advanceBy s.charWidth
  let near ← need (← head).capturedText?
  throw ⟨.unexpectedCharacter (c.getD Utf8.replacement), location, near⟩

/-- What the byte ahead, as a character, begins if it begins no name. -/
def readSign (c : Char) : Action TokenRecord := do
  let l ← get
  match c with
  | '"' | '\'' => readString c
  | '0' | '1' | '2' | '3' | '4' | '5' | '6' | '7' | '8' | '9' => readNumber
  | '.' => readPoint
  | '-' => if ← need (l.scanner.startsWith? "--") then readComment else takeSymbol 1 .symbol
  | '[' =>
    if l.scanner.isAt (fun d => d == '[' || d == '=') 1 then readLongString
    else takeSymbol 1 .symbol
  | '=' => oneOrTwo '=' true
  | '<' => angle '<'
  | '>' => angle '>'
  | '/' => oneOrTwo '/' l.dialect.integerDivision
  | ':' => oneOrTwo ':' l.dialect.labels
  | '~' =>
    if l.scanner.isAt (· == '=') 1 then takeSymbol 2 .symbol
    else if l.dialect.bitwiseOperators then takeSymbol 1 .symbol
    else unexpectedCharacter
  | '&' | '|' => if l.dialect.bitwiseOperators then takeSymbol 1 .symbol else unexpectedCharacter
  | '*' | '%' | '^' | '#' | '+' | ',' | ';' | '(' | ')' | '{' | '}' | ']' => takeSymbol 1 .symbol
  | _ => unexpectedCharacter

end Symbols

def readToken : Action TokenRecord := do
  let s ← head
  match s.peek with
  | none => makeToken .endOfInput
  | some b => if s.holds 0 .nameStart then readName else readSign (.ofUInt8 b)

/-- The next token. At the end of the text this is the end token, however often it is asked for. -/
def call : Action TokenRecord := do
  unless (← get).started do
    modify fun l => { l with started := true }
    skipPreamble
  skipSpace
  scan (·.setMark)
  modify fun l => { l with tokenLine := l.scanner.line, tokenLineStart := l.scanner.lineStart }
  readToken

/-- What so many calls give, and the lexer behind them. -/
def calls : Nat → Lexer → Option (List (Except ErrorRecord TokenRecord) × Lexer)
  | 0, l => some ([], l)
  | count + 1, l => do
    let (result, l) ← call l
    let (results, l) ← calls count l
    return (result :: results, l)

end Lexer
end LuaFrontend
