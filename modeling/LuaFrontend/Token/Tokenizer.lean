import LuaFrontend.Error

set_option autoImplicit false

/-
Cutting a text into tokens. A tokenizer stands somewhere in the text and gives one token, or one
error, at a time; after an error it goes on behind what was read.
-/

namespace LuaFrontend

/-- A byte order mark, and a first line for the shell: both may precede a program. -/
def preamble (source : List Char) : List Char :=
  let mark := source.take 1 |>.takeWhile (· == '\uFEFF')
  let rest := source.drop mark.length
  if ['#', '!'].isPrefixOf rest then mark ++ rest.takeWhile (!isLineBreak ·) else mark

/-- What is left of a text, and where it begins. -/
structure Tokenizer where
  dialect : Dialect
  here : Position
  rest : List Char

namespace Tokenizer

/-- At the beginning of a text, behind its preamble. -/
def ofSource (dialect : Dialect) (source : String) : Tokenizer :=
  let passed := preamble source.toList
  ⟨dialect, ({} : Position).after passed, source.toList.drop passed.length⟩

/-- Behind the white space that comes next. -/
def skipSpace (t : Tokenizer) : Tokenizer :=
  { t with here := t.here.after (t.rest.takeWhile isSpace), rest := t.rest.dropWhile isSpace }

/-- The lexeme that comes next, as a token or an error, and the tokenizer behind it. -/
def takeLexeme (t : Tokenizer) : Except LexError Token × Tokenizer :=
  let reading := Lexeme.read t.dialect t.rest
  let text := String.ofList reading.taken
  let result := match reading.outcome with
    | .ok kind => .ok ⟨kind, text, t.here⟩
    | .error fault => .error ⟨fault, t.here, text⟩
  (result, { t with here := t.here.after reading.taken, rest := reading.rest })

/-- The next token. At the end of the text this is the end token, however often it is asked for. -/
def next (t : Tokenizer) : Except LexError Token × Tokenizer := t.skipSpace.takeLexeme

/-- Nothing but white space is left. -/
def isDone (t : Tokenizer) : Bool := t.skipSpace.rest.isEmpty

/-- The token that stands for the end of the text. -/
def endToken (t : Tokenizer) : Token := ⟨.endOfInput, "", t.skipSpace.here⟩

theorem next_of_isDone {t : Tokenizer} (h : t.isDone) : t.next = (.ok t.endToken, t.skipSpace) := by
  have empty : t.skipSpace.rest = [] := List.isEmpty_iff.mp h
  simp only [next, takeLexeme, empty]
  rw [show t.skipSpace = { t.skipSpace with rest := [] } by rw [← empty]]
  rfl

end Tokenizer

/-- A text cut up to its end: the tokens and errors before the end token, and the end token. -/
structure Lexed where
  items : List (Except LexError Token)
  final : Token

namespace Lexed

/-- Takes at most `steps` lexemes from a tokenizer, ending at the end token. -/
def ofTokenizer : Nat → Tokenizer → Lexed
  | 0, t => ⟨[], t.endToken⟩
  | steps + 1, t =>
    if t.isDone then ⟨[], t.endToken⟩
    else
      let others := ofTokenizer steps t.next.2
      { others with items := t.next.1 :: others.items }

/-- Every lexeme takes a character, so there are at most as many as characters. -/
def ofSource (dialect : Dialect) (source : String) : Lexed :=
  let t := Tokenizer.ofSource dialect source
  ofTokenizer t.rest.length t

/-- The tokens, or the first error. -/
def collect (final : Token) : List (Except LexError Token) → Except LexError (List Token)
  | [] => .ok [final]
  | .ok token :: items => (collect final items).map (token :: ·)
  | .error e :: _ => .error e

def tokens (l : Lexed) : Except LexError (List Token) := collect l.final l.items

end Lexed

/-- All tokens of a text, comments included and ending in the end token, or its first error. -/
def tokenize (dialect : Dialect) (source : String) : Except LexError (List Token) :=
  (Lexed.ofSource dialect source).tokens

end LuaFrontend
