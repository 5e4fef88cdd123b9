import Mathlib.Data.Bool.AllAny
import LuaFrontend.Proofs.LargerDialect
import LuaFrontend.Proofs.LexerBrackets

set_option autoImplicit false

namespace LuaFrontend

/-- A fault as it is kept, for a lexeme that begins on this line. -/
def Fault.record (startLine : Nat) : Fault → FaultRecord
  | malformedNumber => .malformedNumber
  | unfinishedString => .unfinishedString
  | unfinishedLongString => .unfinishedLongString startLine
  | unfinishedLongComment => .unfinishedLongComment startLine
  | invalidLongStringDelimiter => .invalidLongStringDelimiter
  | unexpectedCharacter c => .unexpectedCharacter c

namespace Lexeme

variable {dialect : Dialect} {c d : Char} {s symbol : List Char}

section Symbols

/-- The symbols that begin with a sign. -/
def symbolsOf (dialect : Dialect) (c : Char) : List (List Char) :=
  (symbols dialect).filter (·.head?.any (c == ·))

/-- Where a sign stands, only the symbols that begin with it matter. -/
theorem symbol?_cons (dialect : Dialect) (c : Char) (s : List Char) :
    symbol? dialect (c :: s) = (symbolsOf dialect c).find? (·.isPrefixOf (c :: s)) := by
  rw [symbol?, symbolsOf, ← List.head?_filter, ← List.head?_filter, List.filter_filter]
  apply congrArg List.head?
  apply List.filter_congr
  intro symbol inside
  cases symbol with
  | nil => exact absurd (val_lt_of_mem_symbols inside) Bool.false_ne_true
  | cons d symbol =>
    rw [List.isPrefixOf, List.head?_cons, Option.any_some, Bool.beq_comm]
    cases c == d <;> simp

theorem singleton_isPrefixOf (d : Char) (s : List Char) :
    [d].isPrefixOf s = s.head?.any (· == d) := by
  cases s with
  | nil => rfl
  | cons c s => simp [List.isPrefixOf, Bool.beq_comm]

/-- A sign of which two may be a symbol. -/
theorem symbol?_oneOrTwo {enabled : Bool}
    (all : symbolsOf dialect c = if enabled then [[c, c], [c]] else [[c]]) (s : List Char) :
    symbol? dialect (c :: s) =
      some (if enabled && s.head?.any (· == c) then [c, c] else [c]) := by
  rw [symbol?_cons, all]
  cases enabled with
  | false => simp [List.isPrefixOf]
  | true =>
    simp only [List.find?_cons, List.isPrefixOf, beq_self_eq_true, Bool.true_and,
      singleton_isPrefixOf, if_pos]
    cases s.head?.any (· == c) <;> rfl

/-- A comparison that may be doubled. -/
theorem symbol?_angle {bitwise : Bool}
    (all : symbolsOf dialect c = if bitwise then [[c, '='], [c, c], [c]] else [[c, '='], [c]])
    (s : List Char) : symbol? dialect (c :: s) =
      some (if s.head?.any (· == '=') then [c, '=']
        else if s.head?.any (· == c) && bitwise then [c, c] else [c]) := by
  rw [symbol?_cons, all]
  cases bitwise with
  | false =>
    simp only [List.find?_cons, List.isPrefixOf, beq_self_eq_true, Bool.true_and,
      singleton_isPrefixOf, Bool.and_false, Bool.false_eq_true, if_false]
    cases s.head?.any (· == '=') <;> rfl
  | true =>
    simp only [List.find?_cons, List.isPrefixOf, beq_self_eq_true, Bool.true_and,
      singleton_isPrefixOf, Bool.and_true, if_true]
    cases s.head?.any (· == '=') <;> cases s.head?.any (· == c) <;> rfl

/-- Signs with which nothing but a symbol begins. -/
def bareSigns : List Char := ['*', '%', '^', '#', '+', ',', ';', '(', ')', '{', '}', ']']

/-- Signs of which no symbol has more than one. -/
def loneSigns : List Char := bareSigns ++ ['-', '[']

section Table

variable (dialect) (s : List Char)

/-- Only three switches matter to symbols. -/
theorem symbolsOf_eq {f : Bool → Bool → Bool → List (List Char)}
    (h : ∀ labels division bitwise,
      symbolsOf ⟨labels, false, division, bitwise, false, false, false⟩ c =
        f labels division bitwise) :
    symbolsOf dialect c =
      f dialect.labels dialect.integerDivision dialect.bitwiseOperators :=
  h dialect.labels dialect.integerDivision dialect.bitwiseOperators

theorem symbol?_lone (lone : c ∈ loneSigns) : symbol? dialect (c :: s) = some [c] := by
  have all : ∀ c ∈ loneSigns, ∀ labels division bitwise,
      symbolsOf ⟨labels, false, division, bitwise, false, false, false⟩ c = [[c]] :=
    List.all_iff_forall_prop.mp (by decide)
  rw [symbol?_cons, symbolsOf_eq dialect (all c lone)]
  simp [List.isPrefixOf]

theorem symbol?_equals : symbol? dialect ('=' :: s) =
    some (if true && s.head?.any (· == '=') then ['=', '='] else ['=']) := by
  apply symbol?_oneOrTwo
  exact symbolsOf_eq dialect (f := fun _ _ _ => _) (by decide)

theorem symbol?_slash : symbol? dialect ('/' :: s) =
    some (if dialect.integerDivision && s.head?.any (· == '/') then ['/', '/'] else ['/']) := by
  apply symbol?_oneOrTwo
  exact symbolsOf_eq dialect (f := fun _ division _ => if division then _ else _) (by decide)

theorem symbol?_colon : symbol? dialect (':' :: s) =
    some (if dialect.labels && s.head?.any (· == ':') then [':', ':'] else [':']) := by
  apply symbol?_oneOrTwo
  exact symbolsOf_eq dialect (f := fun labels _ _ => if labels then _ else _) (by decide)

theorem symbol?_less : symbol? dialect ('<' :: s) =
    some (if s.head?.any (· == '=') then ['<', '=']
      else if s.head?.any (· == '<') && dialect.bitwiseOperators then ['<', '<'] else ['<']) := by
  apply symbol?_angle
  exact symbolsOf_eq dialect (f := fun _ _ bitwise => if bitwise then _ else _) (by decide)

theorem symbol?_greater : symbol? dialect ('>' :: s) =
    some (if s.head?.any (· == '=') then ['>', '=']
      else if s.head?.any (· == '>') && dialect.bitwiseOperators then ['>', '>'] else ['>']) := by
  apply symbol?_angle
  exact symbolsOf_eq dialect (f := fun _ _ bitwise => if bitwise then _ else _) (by decide)

theorem symbol?_tilde : symbol? dialect ('~' :: s) =
    if s.head?.any (· == '=') then some ['~', '=']
    else if dialect.bitwiseOperators then some ['~'] else none := by
  rw [symbol?_cons, symbolsOf_eq dialect (c := '~')
    (f := fun _ _ bitwise => if bitwise then [['~', '='], ['~']] else [['~', '=']]) (by decide)]
  cases dialect.bitwiseOperators <;>
    simp only [List.find?_cons, List.find?_nil, List.isPrefixOf, beq_self_eq_true, Bool.true_and,
      singleton_isPrefixOf, Bool.false_eq_true, if_false, if_true] <;>
    cases s.head?.any (· == '=') <;> rfl

theorem symbol?_bitwise (sign : c ∈ ['&', '|']) : symbol? dialect (c :: s) =
    if dialect.bitwiseOperators then some [c] else none := by
  have all : ∀ c ∈ ['&', '|'], ∀ labels division bitwise,
      symbolsOf ⟨labels, false, division, bitwise, false, false, false⟩ c =
        if bitwise then [[c]] else [] :=
    List.all_iff_forall_prop.mp (by decide)
  rw [symbol?_cons, symbolsOf_eq dialect (all c sign)]
  cases dialect.bitwiseOperators <;> simp [List.isPrefixOf]

theorem symbol?_point : symbol? dialect ('.' :: s) =
    some (if ['.', '.', '.'].isPrefixOf ('.' :: s) then ['.', '.', '.']
      else if ['.', '.'].isPrefixOf ('.' :: s) then ['.', '.'] else ['.']) := by
  rw [symbol?_cons, symbolsOf_eq dialect (c := '.')
    (f := fun _ _ _ => [['.', '.', '.'], ['.', '.'], ['.']]) (by decide)]
  have one : ['.'].isPrefixOf ('.' :: s) := by simp [List.isPrefixOf]
  rw [List.find?_cons, List.find?_cons, List.find?_cons, one]
  cases ['.', '.', '.'].isPrefixOf ('.' :: s) <;> cases ['.', '.'].isPrefixOf ('.' :: s) <;> rfl

/-- The first characters of symbols. -/
def symbolSigns : List Char := loneSigns ++ ['=', '/', ':', '<', '>', '~', '&', '|', '.']

theorem symbol?_none (other : c ∉ symbolSigns) : symbol? dialect (c :: s) = none := by
  have first : ∀ labels division bitwise,
      ∀ symbol ∈ symbols ⟨labels, false, division, bitwise, false, false, false⟩,
        symbol.head?.any (symbolSigns.contains ·) := by decide
  apply List.find?_eq_none.mpr
  intro symbol inside begins
  have known := first dialect.labels dialect.integerDivision dialect.bitwiseOperators symbol inside
  obtain ⟨behind, same⟩ := List.isPrefixOf_iff_prefix.mp begins
  cases symbol with
  | nil => contradiction
  | cons d symbol =>
    obtain ⟨rfl, -⟩ := List.cons.inj same
    exact other (List.contains_iff_mem.mp known)

end Table

theorem utf8Size_of_mem_symbol (h : symbol ∈ symbols dialect) (inside : c ∈ symbol) :
    c.utf8Size = 1 := by
  have all : ∀ labels division bitwise,
      ∀ symbol ∈ symbols ⟨labels, false, division, bitwise, false, false, false⟩,
        symbol.all (·.utf8Size == 1) := by decide
  have ascii := all dialect.labels dialect.integerDivision dialect.bitwiseOperators symbol h
  exact beq_iff_eq.mp (List.all_eq_true.mp ascii c inside)

end Symbols

end Lexeme

namespace Lexer

open Machine Lexeme

variable {l : Lexer} {c : Char} {s symbol text : List Char}

section Readings

/-- What a reading of the text ahead is kept as. A character that begins nothing is reported where it
stands, everything else where reading stopped. -/
def settle (l : Lexer) (r : Reading) : Option (Except ErrorRecord TokenRecord × Lexer) :=
  let behind := l.moved r.taken
  some (match r.outcome with
    | .ok kind => .ok (behind.token kind)
    | .error (.unexpectedCharacter c) =>
      .error ⟨.unexpectedCharacter c, (l.report (.unexpectedCharacter c)).location,
        behind.scanner.capturedText⟩
    | .error fault => .error (behind.report (fault.record l.scanner.line)), behind)

/-- A part that is a token if it is complete. -/
theorem finishToken_eq_settle (l : Lexer) (p : Part) (kind : TokenKind) (fault : Fault)
    (known : ∀ c, fault ≠ .unexpectedCharacter c) :
    l.finishToken p kind (fault.record l.scanner.line) = l.settle (.ofPart p kind fault) := by
  cases whole : p.complete with
  | true => rw [finishToken, finish_of_complete whole, settle, Reading.ofPart, if_pos whole]
  | false =>
    rw [finishToken, finish_of_half whole, settle, Reading.ofPart, whole, if_neg Bool.false_ne_true]
    cases fault with
    | unexpectedCharacter c => exact absurd rfl (known c)
    | _ => rfl

end Readings

section Names

theorem scanWhile_namePart (h : l.Faces text) :
    { l with scanner := l.scanner.scanWhile (·.holds 0 .namePart) } =
      l.moved (text.takeWhile (isNamePart l.dialect.extendedIdentifiers)) := by
  have inline : IsInline (isNamePart l.dialect.extendedIdentifiers) :=
    ⟨isNamePart_gap rfl _, isNamePart_gap rfl _⟩
  rw [← h.scanWhile (isBytewise_isNamePart _) inline]
  congr 1
  apply Scanner.scanUpTo_congr
  · intro position inside
    rw [← h.extended]
    rfl
  · have bound := h.isInText.position_le
    omega

theorem readName_eq (h : l.Faces text) (marked : l.scanner.mark = l.scanner.position) :
    readName l = l.settle (Lexeme.readName l.dialect text) := by
  have split := Part.text_run (isNamePart l.dialect.extendedIdentifiers) text
  have name := (show l.scanner.Faces (_ ++ _) from split ▸ h.scanner).capturedText?_passed marked
  rw [readName, run_scan, scanWhile_namePart h, run_head]
  refine (congrArg (fun word => (need word >>= _ : Action TokenRecord) _) name).trans ?_
  exact (h.behind split).makeToken _

end Names

section Signs

/-- As many bytes as the symbol has characters. -/
theorem takeSymbol_eq (h : l.Faces (c :: s)) (found : symbol? l.dialect (c :: s) = some symbol) :
    takeSymbol symbol.length (if symbol = ['.', '.', '.'] then .vararg else .symbol) l =
      l.settle (Lexeme.readSymbol l.dialect (c :: s)) := by
  have ascii : ∀ d ∈ symbol, d.utf8Size = 1 :=
    fun d => utf8Size_of_mem_symbol (List.mem_of_find?_eq_some found)
  have inline : ∀ d ∈ symbol, isLineBreak d = false :=
    fun d => isLineBreak_of_mem_symbol (List.mem_of_find?_eq_some found)
  have front := List.find?_some found
  obtain ⟨behind, same⟩ := List.isPrefixOf_iff_prefix.mp front
  rw [Lexeme.readSymbol, found, takeSymbol, run_scan]
  rw [← same] at h
  rw [h.advanceBy_length ascii inline]
  exact h.moved.makeToken _

/-- The character ahead is reported where it stands, and taken. -/
theorem unexpectedCharacter_eq (h : l.Faces (c :: s)) (inline : isLineBreak c = false)
    (none : symbol? l.dialect (c :: s) = none) :
    unexpectedCharacter l = l.settle (Lexeme.readSymbol l.dialect (c :: s)) := by
  have behind := h.moved (a := [c])
  have moved : { l with scanner := l.scanner.advanceBy l.scanner.charWidth } = l.moved [c] := by
    rw [h.scanner.charWidth]
    exact h.advanceBy (a := [c]) (by simpa using inline)
  rw [Lexeme.readSymbol, none, unexpectedCharacter, run_head, h.scanner.peekChar?, run_need,
    location_of_le h.isInText.lineStart_le, run_need, run_scan, moved, run_head,
    capturedText?_of_isInText behind.isInText, run_need]
  rfl

/-- A width that is that of the symbol. -/
theorem takeSymbol_of_length {width : Nat} (h : l.Faces (c :: s))
    (found : symbol? l.dialect (c :: s) = some symbol) (length : symbol.length = width)
    (other : symbol ≠ ['.', '.', '.']) :
    takeSymbol width .symbol l = l.settle (Lexeme.readSymbol l.dialect (c :: s)) := by
  rw [← takeSymbol_eq h found, length, if_neg other]

theorem oneOrTwo_eq {enabled : Bool} (h : l.Faces (c :: s)) (one : c.utf8Size = 1)
    (found : symbol? l.dialect (c :: s) =
      some (if enabled && s.head?.any (· == c) then [c, c] else [c])) :
    oneOrTwo c enabled l = l.settle (Lexeme.readSymbol l.dialect (c :: s)) := by
  rw [oneOrTwo, run_head, h.scanner.isAt_one one (isBytewise_eq one)]
  apply takeSymbol_of_length h found
  · split <;> rfl
  · split <;> simp

theorem angle_eq (h : l.Faces (c :: s)) (one : c.utf8Size = 1)
    (found : symbol? l.dialect (c :: s) = some (if s.head?.any (· == '=') then [c, '=']
      else if s.head?.any (· == c) && l.dialect.bitwiseOperators then [c, c] else [c])) :
    angle c l = l.settle (Lexeme.readSymbol l.dialect (c :: s)) := by
  rw [angle, run_get, h.scanner.isAt_one one (isBytewise_eq one),
    h.scanner.isAt_one one (isBytewise_eq rfl)]
  apply takeSymbol_of_length h found
  · repeat' split
    all_goals rfl
  · repeat' split
    all_goals simp

theorem readPoint_eq (h : l.Faces ('.' :: s)) (noDigit : s.head?.any isDigit = false) :
    readPoint l = l.settle (Lexeme.readSymbol l.dialect ('.' :: s)) := by
  have found := symbol?_point l.dialect s
  have digit : l.scanner.holds 1 .digit = false :=
    (h.scanner.isAt_one rfl isBytewise_isDigit).trans noDigit
  rw [readPoint, run_head, digit, if_neg Bool.false_ne_true, h.scanner.startsWith?, run_need, run_ite,
    h.scanner.startsWith?, run_need, run_ite]
  change (if ['.', '.', '.'].isPrefixOf _ then _ else if ['.', '.'].isPrefixOf _ then _ else _) = _
  split at found
  · next three => rw [if_pos three, ← takeSymbol_eq h found]; rfl
  · next noThree =>
    rw [if_neg noThree]
    split at found
    · next two => rw [if_pos two, ← takeSymbol_eq h found]; rfl
    · next noTwo => rw [if_neg noTwo, ← takeSymbol_eq h found]; rfl

end Signs

section Dispatch

theorem readString_settles (isQuote : Quotation.IsQuote c) (h : l.Faces (c :: s)) :
    readString c l = l.settle (Lexeme.read l.dialect (c :: s)) := by
  rw [Lexeme.read, isQuote.start]
  exact (readString_eq isQuote h).trans
    (l.finishToken_eq_settle _ .string .unfinishedString fun _ => by simp)

theorem readNumber_settles (h : l.Faces text) (begins : start l.dialect text = .number) :
    readNumber l = l.settle (Lexeme.read l.dialect text) := by
  rw [Lexeme.read, begins]
  exact (readNumber_eq h begins).trans
    (l.finishToken_eq_settle _ .number .malformedNumber fun _ => by simp)

theorem readComment_settles (h : l.Faces ('-' :: '-' :: s)) :
    readComment l = l.settle (Lexeme.read l.dialect ('-' :: '-' :: s)) := by
  have begins : start l.dialect ('-' :: '-' :: s) = .comment := by simp [start, isNameStart, isDigit]
  rw [Lexeme.read, begins]
  exact (readComment_eq h).trans
    (l.finishToken_eq_settle _ .comment .unfinishedLongComment fun _ => by simp)

theorem readLongString_settles (h : l.Faces ('[' :: s))
    (begins : s.head?.any fun d => d == '[' || d == '=') :
    readLongString l = l.settle (Lexeme.read l.dialect ('[' :: s)) := by
  have begins : start l.dialect ('[' :: s) = .longBracket := by
    simp [start, isNameStart, isDigit, begins]
  rw [Lexeme.read, begins]
  refine (readLongString_eq h).trans ?_
  simp only [Lexeme.readLongString]
  cases openingLevel? ('[' :: s) with
  | some level => exact l.finishToken_eq_settle _ .string .unfinishedLongString fun _ => by simp
  | none =>
    exact l.finishToken_eq_settle _ .string .invalidLongStringDelimiter fun _ => by simp

theorem read_of_symbol {dialect : Dialect} (begins : start dialect text = .symbol) :
    Lexeme.read dialect text = Lexeme.readSymbol dialect text := by
  rw [Lexeme.read, begins]

/-- A sign that is always a symbol by itself. -/
theorem lone_settles (h : l.Faces (c :: s)) (lone : c ∈ loneSigns)
    (begins : start l.dialect (c :: s) = .symbol) :
    takeSymbol 1 .symbol l = l.settle (Lexeme.read l.dialect (c :: s)) := by
  rw [read_of_symbol begins]
  exact takeSymbol_of_length h (symbol?_lone l.dialect s lone) rfl (by simp)

def digits : List Char := ['0', '1', '2', '3', '4', '5', '6', '7', '8', '9']

theorem mem_digits (h : isDigit c) : c ∈ digits := by
  have all : ∀ n < 128, isDigit (Char.ofNat n) → Char.ofNat n ∈ digits := by decide
  have small := (Char.utf8Size_eq_one_iff).mp (utf8Size_of_isDigit h)
  rw [← c.ofNat_toNat] at h ⊢
  exact all c.toNat (Nat.lt_succ_of_le small) h

theorem isDigit_of_mem (h : c ∈ digits) : isDigit c := by
  have all : digits.all isDigit := by decide
  exact List.all_eq_true.mp all c h

/-- What begins a lexeme but no name. -/
def openers : List Char := ['"', '\''] ++ digits ++ symbolSigns

theorem readSign_digit (h : l.Faces (c :: s)) (digit : isDigit c) :
    readSign c l = l.settle (Lexeme.read l.dialect (c :: s)) := by
  have run : readSign c l = readNumber l ∧ start l.dialect (c :: s) = .number := by
    have member := mem_digits digit
    simp only [digits, List.mem_cons, List.not_mem_nil, or_false] at member
    rcases member with rfl | rfl | rfl | rfl | rfl | rfl | rfl | rfl | rfl | rfl <;>
      exact ⟨rfl, by simp [start, isNameStart, isDigit]⟩
  rw [run.1]
  exact readNumber_settles h run.2

theorem readSign_other (other : c ∉ openers) : readSign c l = unexpectedCharacter l := by
  unfold readSign
  rw [run_get]
  split
  all_goals first | rfl | exact absurd (by decide) other

theorem readSign_bare (h : l.Faces (c :: s)) (bare : c ∈ bareSigns) :
    readSign c l = l.settle (Lexeme.read l.dialect (c :: s)) := by
  have run : readSign c l = takeSymbol 1 .symbol l ∧ start l.dialect (c :: s) = .symbol := by
    simp only [bareSigns, List.mem_cons, List.not_mem_nil, or_false] at bare
    rcases bare with rfl | rfl | rfl | rfl | rfl | rfl | rfl | rfl | rfl | rfl | rfl | rfl <;>
      exact ⟨rfl, by simp [start, isNameStart, isDigit]⟩
  rw [run.1]
  exact lone_settles h (List.mem_append_left _ bare) run.2

theorem readSign_dash (h : l.Faces ('-' :: s)) :
    readSign '-' l = l.settle (Lexeme.read l.dialect ('-' :: s)) := by
  have run : readSign '-' l = (do
      if ← need (l.scanner.startsWith? "--") then readComment else takeSymbol 1 .symbol :
        Action TokenRecord) l := rfl
  have second : "--".toList.isPrefixOf ('-' :: s) = s.head?.any (· == '-') :=
    singleton_isPrefixOf '-' s
  rw [run, h.scanner.startsWith?, run_need, run_ite, second]
  split
  · next dashes =>
    cases s with
    | nil => contradiction
    | cons d s =>
      obtain rfl : d = '-' := beq_iff_eq.mp dashes
      exact readComment_settles h
  · next single =>
    apply lone_settles h (by decide)
    simp [start, isNameStart, isDigit, single]

theorem readSign_bracket (h : l.Faces ('[' :: s)) :
    readSign '[' l = l.settle (Lexeme.read l.dialect ('[' :: s)) := by
  have run : readSign '[' l = if l.scanner.isAt (fun d => d == '[' || d == '=') 1
      then readLongString l else takeSymbol 1 .symbol l := run_ite ..
  rw [run, h.scanner.isAt_one rfl (isBytewise_or rfl rfl)]
  split
  · next long => exact readLongString_settles h long
  · next single =>
    apply lone_settles h (by decide)
    simp [start, isNameStart, isDigit, single]

theorem readSign_point (h : l.Faces ('.' :: s)) :
    readSign '.' l = l.settle (Lexeme.read l.dialect ('.' :: s)) := by
  have run : readSign '.' l = readPoint l := rfl
  rw [run]
  cases digit : s.head?.any isDigit with
  | true =>
    have begins : start l.dialect ('.' :: s) = .number := by simp [start, isNameStart, digit]
    have number : l.scanner.holds 1 .digit = true :=
      (h.scanner.isAt_one rfl isBytewise_isDigit).trans digit
    rw [readPoint, run_head, number, if_pos rfl]
    exact readNumber_settles h begins
  | false =>
    rw [read_of_symbol (by simp [start, isNameStart, isDigit, digit])]
    exact readPoint_eq h digit

theorem readSign_tilde (h : l.Faces ('~' :: s)) :
    readSign '~' l = l.settle (Lexeme.read l.dialect ('~' :: s)) := by
  have found := symbol?_tilde l.dialect s
  have run : readSign '~' l = if l.scanner.isAt (· == '=') 1 then takeSymbol 2 .symbol l
      else if l.dialect.bitwiseOperators then takeSymbol 1 .symbol l
      else unexpectedCharacter l := by
    change (if _ then takeSymbol 2 .symbol else if _ then _ else _ : Action TokenRecord) l = _
    rw [run_ite, run_ite]
  rw [run, h.scanner.isAt_one rfl (isBytewise_eq rfl),
    read_of_symbol (by simp [start, isNameStart, isDigit])]
  split at found
  · next equals =>
    rw [if_pos equals]
    exact takeSymbol_of_length h found rfl (by simp)
  · next noEquals =>
    rw [if_neg noEquals]
    split at found
    · next bitwise =>
      rw [if_pos bitwise]
      exact takeSymbol_of_length h found rfl (by simp)
    · next off =>
      rw [if_neg off]
      exact unexpectedCharacter_eq h rfl found

theorem readSign_bitwise (h : l.Faces (c :: s)) (sign : c ∈ ['&', '|']) :
    readSign c l = l.settle (Lexeme.read l.dialect (c :: s)) := by
  have found := symbol?_bitwise l.dialect s sign
  have run : readSign c l = (if l.dialect.bitwiseOperators then takeSymbol 1 .symbol l
      else unexpectedCharacter l) ∧ isLineBreak c = false ∧
        start l.dialect (c :: s) = .symbol := by
    simp only [List.mem_cons, List.not_mem_nil, or_false] at sign
    rcases sign with rfl | rfl <;>
      exact ⟨run_ite .., rfl, by simp [start, isNameStart, isDigit]⟩
  rw [run.1, read_of_symbol run.2.2]
  split at found
  · next bitwise =>
    rw [if_pos bitwise]
    exact takeSymbol_of_length h found rfl (by simp)
  · next off =>
    rw [if_neg off]
    exact unexpectedCharacter_eq h run.2.1 found

/-- Signs of which two, or an equals sign behind one, may be a symbol. -/
theorem readSign_doubled (h : l.Faces (c :: s)) (sign : c ∈ ['=', '/', ':', '<', '>']) :
    readSign c l = l.settle (Lexeme.read l.dialect (c :: s)) := by
  have begins : start l.dialect (c :: s) = .symbol := by
    simp only [List.mem_cons, List.not_mem_nil, or_false] at sign
    rcases sign with rfl | rfl | rfl | rfl | rfl <;> simp [start, isNameStart, isDigit]
  rw [read_of_symbol begins]
  simp only [List.mem_cons, List.not_mem_nil, or_false] at sign
  rcases sign with rfl | rfl | rfl | rfl | rfl
  · rw [readSign, run_get]
    exact oneOrTwo_eq h rfl (symbol?_equals l.dialect s)
  · rw [readSign, run_get]
    exact oneOrTwo_eq h rfl (symbol?_slash l.dialect s)
  · rw [readSign, run_get]
    exact oneOrTwo_eq h rfl (symbol?_colon l.dialect s)
  · rw [readSign, run_get]
    exact angle_eq h rfl (symbol?_less l.dialect s)
  · rw [readSign, run_get]
    exact angle_eq h rfl (symbol?_greater l.dialect s)

/-- What begins with no sign is a character of its own, whatever byte it is looked at by. -/
theorem readSign_unexpected {b : UInt8} (h : l.Faces (c :: s)) (inline : isLineBreak c = false)
    (noName : isNameStart l.dialect.extendedIdentifiers c = false) (other : c ∉ openers)
    (byte : .ofUInt8 b ∉ openers) :
    readSign (.ofUInt8 b) l = l.settle (Lexeme.read l.dialect (c :: s)) := by
  have noDigit : isDigit c = false :=
    Bool.eq_false_iff.mpr fun digit => other (by simp [openers, mem_digits digit])
  have noSign : c ∉ symbolSigns := fun sign => other (by simp [openers, sign])
  have ne (d : Char) (opens : d ∈ openers) : (c == d) = false :=
    beq_eq_false_iff_ne.mpr (ne_of_mem_of_not_mem opens other).symm
  have begins : start l.dialect (c :: s) = .symbol := by
    rw [start, noName, ne '"' (by decide), ne '\'' (by decide), noDigit, ne '.' (by decide),
      ne '-' (by decide), ne '[' (by decide)]
    rfl
  rw [readSign_other byte, read_of_symbol begins]
  exact unexpectedCharacter_eq h inline (symbol?_none l.dialect s noSign)

/-- What begins no name is read as the byte ahead tells. -/
theorem readSign_eq (h : l.Faces (c :: s)) (inline : isLineBreak c = false)
    (noName : isNameStart l.dialect.extendedIdentifiers c = false) (one : c.utf8Size = 1) :
    readSign c l = l.settle (Lexeme.read l.dialect (c :: s)) := by
  by_cases quote : Quotation.IsQuote c
  · have run : readSign c l = readString c l := by
      rcases quote with rfl | rfl <;> rfl
    rw [run]
    exact readString_settles quote h
  by_cases digit : isDigit c
  · exact readSign_digit h digit
  by_cases bare : c ∈ bareSigns
  · exact readSign_bare h bare
  by_cases dash : c = '-'
  · subst dash
    exact readSign_dash h
  by_cases bracket : c = '['
  · subst bracket
    exact readSign_bracket h
  by_cases point : c = '.'
  · subst point
    exact readSign_point h
  by_cases tilde : c = '~'
  · subst tilde
    exact readSign_tilde h
  by_cases bitwise : c ∈ ['&', '|']
  · exact readSign_bitwise h bitwise
  by_cases doubled : c ∈ ['=', '/', ':', '<', '>']
  · exact readSign_doubled h doubled
  · have byte := ofUInt8_of_utf8Size one
    have noDigit : c ∉ digits := fun inside => digit (isDigit_of_mem inside)
    have other : c ∉ openers := by
      simp only [List.mem_cons, List.not_mem_nil, or_false, not_or] at bitwise doubled
      simp only [openers, symbolSigns, loneSigns, List.mem_append, List.mem_cons, List.not_mem_nil,
        or_false, not_or, noDigit, bare, dash, bracket, point, tilde, bitwise, doubled]
      exact not_or.mp quote
    have run := readSign_unexpected (b := c.val.toUInt8) h inline noName other (byte.symm ▸ other)
    rwa [byte] at run

end Dispatch

/-- The token ahead is read as its lexeme is. -/
theorem readToken_eq (h : l.Faces text) (marked : l.scanner.mark = l.scanner.position)
    (inline : text.head?.any isLineBreak = false) :
    readToken l = l.settle (Lexeme.read l.dialect text) := by
  cases text with
  | nil =>
    rw [readToken, run_head, h.scanner.peek_eq_none]
    refine (h.makeToken .endOfInput).trans ?_
    rw [settle]
    simp [Lexeme.read, start, Lexeme.readSymbol]
  | cons c s =>
    obtain ⟨b, others, first, bytes⟩ := h.scanner.peek_eq_some
    have name : l.scanner.holds 0 .nameStart = isNameStart l.dialect.extendedIdentifiers c := by
      rw [← h.extended]
      exact h.scanner.isAt_zero (isBytewise_isNameStart _)
    rw [readToken, run_head, first]
    change (if l.scanner.holds 0 .nameStart then readName else readSign (.ofUInt8 b)) l = _
    rw [run_ite, name]
    split
    · next isName =>
      have begins : start l.dialect (c :: s) = .name := by rw [start, if_pos isName]
      rw [Lexeme.read, begins]
      exact readName_eq h marked
    · next noName =>
      have noName := Bool.eq_false_iff.mpr noName
      by_cases one : c.utf8Size = 1
      · rw [String.utf8EncodeChar_eq_singleton one] at bytes
        obtain ⟨rfl, -⟩ := List.cons.inj bytes
        rw [ofUInt8_of_utf8Size one]
        exact readSign_eq h inline noName one
      · have ascii : ∀ d ∈ openers, d.utf8Size = 1 := List.all_iff_forall_prop.mp (by decide)
        have outside :=
          utf8Size_ofUInt8_of_le (le_of_mem_utf8EncodeChar one (bytes ▸ List.mem_cons_self))
        apply readSign_unexpected h inline noName
        · exact fun opens => one (ascii c opens)
        · exact fun opens => outside (ascii _ opens)

end Lexer
end LuaFrontend
