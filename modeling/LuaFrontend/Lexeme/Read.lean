import LuaFrontend.Lexeme.Bracketed
import LuaFrontend.Lexeme.Number
import LuaFrontend.Lexeme.Quoted
import LuaFrontend.Lexeme.Symbol
import LuaFrontend.Token.Word

set_option autoImplicit false

/-
The lexeme at the front of a text. Its first characters decide which recognizer reads it; what the
recognizer takes is either a token of some kind or shows a fault.
-/

namespace LuaFrontend

/-- What can be wrong with a lexeme. -/
inductive Fault where
  | malformedNumber
  | unfinishedString
  | unfinishedLongString
  | unfinishedLongComment
  | invalidLongStringDelimiter
  | unexpectedCharacter (c : Char)
deriving DecidableEq

namespace Lexeme

/-- A lexeme that was read: the characters taken, those that are left, and what it is. -/
structure Reading where
  taken : List Char
  rest : List Char
  outcome : Except Fault TokenKind

namespace Reading

/-- A part is a token if it is complete and a fault if not. -/
def ofPart (p : Part) (kind : TokenKind) (fault : Fault) : Reading :=
  ⟨p.taken, p.rest, if p.complete then .ok kind else .error fault⟩

/-- The whole text again. -/
def text (r : Reading) : List Char := r.taken ++ r.rest

end Reading

/-- A name or a word of the language. -/
def readName (dialect : Dialect) (s : List Char) : Reading :=
  let name := s.takeWhile (isNamePart dialect.extendedIdentifiers)
  ⟨name, s.dropWhile (isNamePart dialect.extendedIdentifiers),
    .ok (wordKind dialect.contextualGoto (String.ofList name))⟩

/-- A string in long brackets, or a bracket and equals signs that open none. -/
def readLongString (s : List Char) : Reading :=
  match openingLevel? s with
  | some level => .ofPart (bracketed level s) .string .unfinishedLongString
  | none => .ofPart (brokenOpening s) .string .invalidLongStringDelimiter

/-- A comment from behind its two dashes: in long brackets, or to the end of the line. -/
def readComment (s : List Char) : Reading :=
  let body := match openingLevel? s with
    | some level => bracketed level s
    | none => lineComment s
  .ofPart (body.push ['-', '-']) .comment .unfinishedLongComment

/-- A symbol, or a character that begins no lexeme. -/
def readSymbol (dialect : Dialect) : List Char → Reading
  | [] => ⟨[], [], .ok .endOfInput⟩
  | c :: s =>
    match symbol? dialect (c :: s) with
    | some symbol =>
      ⟨symbol, (c :: s).drop symbol.length,
        .ok (if symbol = ['.', '.', '.'] then .vararg else .symbol)⟩
    | none => ⟨[c], s, .error (.unexpectedCharacter c)⟩

/-- What a text goes on with, as far as its first two characters tell. -/
inductive Start where
  | name
  | quote
  | number
  | comment
  | longBracket
  | symbol
deriving DecidableEq

/-- Two dashes are a comment, a point and a digit a number, and a bracket followed by a bracket or
an equals sign is a long one. -/
def start (dialect : Dialect) : List Char → Start
  | [] => .symbol
  | c :: s =>
    if isNameStart dialect.extendedIdentifiers c then .name
    else if c == '"' || c == '\'' then .quote
    else if isDigit c || (c == '.' && s.head?.any isDigit) then .number
    else if c == '-' && s.head?.any (· == '-') then .comment
    else if c == '[' && s.head?.any (fun d => d == '[' || d == '=') then .longBracket
    else .symbol

/-- The lexeme at the front of a text that does not begin with white space. -/
def read (dialect : Dialect) (s : List Char) : Reading :=
  match start dialect s with
  | .name => readName dialect s
  | .quote => .ofPart (quoted s) .string .unfinishedString
  | .number => .ofPart (number dialect s) .number .malformedNumber
  | .comment => readComment (s.drop 2)
  | .longBracket => readLongString s
  | .symbol => readSymbol dialect s

theorem eq_of_start_comment {dialect : Dialect} {s : List Char}
    (h : start dialect s = .comment) : s = ['-', '-'] ++ s.drop 2 := by
  match s with
  | [] => simp [start] at h
  | [c] =>
    simp only [start] at h
    repeat' split at h
    all_goals simp_all
  | c :: d :: s =>
    simp only [start] at h
    repeat' split at h
    all_goals simp_all

theorem text_ofPart (p : Part) (kind : TokenKind) (fault : Fault) :
    (Reading.ofPart p kind fault).text = p.text := rfl

theorem text_readComment (s : List Char) : (readComment s).text = ['-', '-'] ++ s := by
  simp only [readComment, text_ofPart, Part.text_push]
  split
  · rw [text_bracketed]
  · rw [text_lineComment]

theorem text_readSymbol (dialect : Dialect) (s : List Char) : (readSymbol dialect s).text = s := by
  cases s with
  | nil => rfl
  | cons c s =>
    simp only [readSymbol]
    split
    · next symbol found =>
      unfold symbol? at found
      have front := List.find?_some found
      simp only [Reading.text]
      exact List.prefix_iff_eq_append.mp (List.isPrefixOf_iff_prefix.mp front)
    · rfl

/-- Reading splits the text and loses nothing. -/
theorem text_read (dialect : Dialect) (s : List Char) : (read dialect s).text = s := by
  unfold read
  split
  · exact List.takeWhile_append_dropWhile
  · rw [text_ofPart, text_quoted]
  · rw [text_ofPart, text_number]
  · next h => rw [text_readComment, ← eq_of_start_comment h]
  · unfold readLongString
    split
    · rw [text_ofPart, text_bracketed]
    · rw [text_ofPart, text_brokenOpening]
  · exact text_readSymbol dialect s

/-- Whatever a text begins with, something is read. -/
theorem taken_read_ne_nil (dialect : Dialect) {s : List Char} (h : s ≠ []) :
    (read dialect s).taken ≠ [] := by
  obtain ⟨c, s, rfl⟩ := List.exists_cons_of_ne_nil h
  unfold read
  split
  · next begins =>
    have name : isNameStart dialect.extendedIdentifiers c := by
      simp only [start] at begins
      repeat' split at begins
      all_goals simp_all
    simp [readName, isNamePart, name]
  · exact Part.taken_push_ne_nil (by simp) _
  · next begins =>
    apply taken_number_ne_nil
    simp only [start] at begins
    repeat' split at begins
    all_goals simp_all
    grind
  · exact Part.taken_push_ne_nil (by simp) _
  · next begins =>
    unfold readLongString
    split
    · exact Part.taken_push_ne_nil (by simp [opening]) _
    · exact Part.taken_push_ne_nil (by simp) _
  · simp only [readSymbol]
    split
    · next symbol found =>
      have member := List.mem_of_find?_eq_some found
      intro empty
      simp only at empty
      subst empty
      revert member
      simp [symbols]
    · simp

end Lexeme
end LuaFrontend
