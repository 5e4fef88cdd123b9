import LuaFrontend.Grammar.Expression
import LuaFrontend.Proofs.PrintedWords
import LuaFrontend.Proofs.RejoinedTokens

set_option autoImplicit false

namespace LuaFrontend

open LuaFrontend.Lexeme

variable {dialect : Dialect} {w : Word}

/-- The kind is that of a name, or belongs to a recognizer of its own, or is that of a symbol. -/
theorem Word.IsWhole.kind_cases (whole : w.IsWhole dialect) :
    w.1 = wordKind dialect.contextualGoto w.2 ∨
    (w.1 = .string ∨ w.1 = .number ∨ w.1 = .comment) ∨
    w.2.toList ∈ symbols dialect ∧
      w.1 = if w.2.toList = ['.', '.', '.'] then .vararg else .symbol := by
  obtain ⟨⟨c, s, same, -⟩, read⟩ := whole
  have ofPart {p : Part} {kind : TokenKind} {fault : Fault}
      (h : Reading.ofPart p kind fault = ⟨w.2.toList, [], .ok w.1⟩) : w.1 = kind := by
    have outcome := congrArg Reading.outcome h
    simp only [Reading.ofPart] at outcome
    split at outcome <;> cases outcome
    rfl
  unfold Lexeme.read at read
  split at read
  · have name := congrArg Reading.taken read
    have kind := congrArg Reading.outcome read
    simp only [readName] at name kind
    rw [name, String.ofList_toList] at kind
    exact .inl (Except.ok.inj kind).symm
  · exact .inr (.inl (.inl (ofPart read)))
  · exact .inr (.inl (.inr (.inl (ofPart read))))
  · exact .inr (.inl (.inr (.inr (ofPart read))))
  · unfold readLongString at read
    split at read
    · exact .inr (.inl (.inl (ofPart read)))
    · exact .inr (.inl (.inl (ofPart read)))
  · rw [same, readSymbol, ← same] at read
    split at read
    · next symbol found =>
      have taken : symbol = w.2.toList := congrArg Reading.taken read
      have kind := congrArg Reading.outcome read
      rw [taken] at found kind
      exact .inr (.inr ⟨List.mem_of_find?_eq_some found, (Except.ok.inj kind).symm⟩)
    · cases congrArg Reading.outcome read

/-- Which words of letters have a kind of their own. -/
theorem wordKind_cases (contextual : Bool) (text : String) :
    (wordKind contextual text = .logicalOperator ∧ text ∈ ["and", "or", "not"]) ∨
    (wordKind contextual text = .boolean ∧ text ∈ ["true", "false"]) ∨
    (wordKind contextual text = .nil ∧ text = "nil") ∨
    (wordKind contextual text = .keyword ∧ text ∈ reservedWords ∧
      (text = "goto" → contextual = false)) ∨
    (wordKind contextual text = .identifier ∧
      text ∉ ["and", "or", "not", "true", "false", "nil"] ∧
      (text ∈ reservedWords → text = "goto" ∧ contextual)) := by
  unfold wordKind
  split
  · next operator => simpa [or_assoc] using operator
  · split
    · next boolean => simp_all
    · split
      · next isNil => simp_all
      · split
        · next jump => simp_all
        · split
          · next reserved => simp_all [isReserved]
          · next free => simp_all [isReserved]

namespace Word.IsWhole

/-- A word of any other kind is read as a name. -/
theorem kind_eq (whole : w.IsWhole dialect)
    (other : w.1 ∉ [.string, .number, .comment, .symbol, .vararg]) :
    wordKind dialect.contextualGoto w.2 = w.1 := by
  rcases whole.kind_cases with name | free | ⟨-, symbol⟩
  · exact name.symm
  · rcases free with kind | kind | kind <;> simp [kind] at other
  · split at symbol <;> simp [symbol] at other

theorem text_of_nil (whole : w.IsWhole dialect) (kind : w.1 = .nil) : w.2 = "nil" := by
  have names := wordKind_cases dialect.contextualGoto w.2
  rw [whole.kind_eq (by simp [kind]), kind] at names
  simpa using names

theorem text_of_boolean (whole : w.IsWhole dialect) (kind : w.1 = .boolean) :
    w.2 ∈ ["true", "false"] := by
  have names := wordKind_cases dialect.contextualGoto w.2
  rw [whole.kind_eq (by simp [kind]), kind] at names
  simpa using names

theorem text_of_logicalOperator (whole : w.IsWhole dialect) (kind : w.1 = .logicalOperator) :
    w.2 ∈ ["and", "or", "not"] := by
  have names := wordKind_cases dialect.contextualGoto w.2
  rw [whole.kind_eq (by simp [kind]), kind] at names
  simpa using names

/-- The word `goto` is a keyword only where it is no name. -/
theorem contextualGoto_of_keyword (whole : w.IsWhole dialect) (kind : w.1 = .keyword)
    (text : w.2 = "goto") : dialect.contextualGoto = false := by
  have names := wordKind_cases dialect.contextualGoto w.2
  rw [whole.kind_eq (by simp [kind]), kind] at names
  simp only [reduceCtorEq, false_and, false_or, true_and, or_false] at names
  exact names.2 text

/-- A name is none of the words that the language spells, except for `goto` where that is one. -/
theorem text_of_identifier (whole : w.IsWhole dialect) (kind : w.1 = .identifier) :
    w.2 ∉ ["and", "or", "not", "true", "false", "nil"] ∧
      (w.2 ∈ reservedWords → w.2 = "goto" ∧ dialect.contextualGoto) := by
  have names := wordKind_cases dialect.contextualGoto w.2
  rw [whole.kind_eq (by simp [kind]), kind] at names
  simpa only [reduceCtorEq, false_and, false_or, true_and] using names

theorem text_of_vararg (whole : w.IsWhole dialect) (kind : w.1 = .vararg) : w.2 = "..." := by
  rcases whole.kind_cases with name | other | ⟨-, symbol⟩
  · have names := wordKind_cases dialect.contextualGoto w.2
    rw [← name, kind] at names
    simp at names
  · simp [kind] at other
  · rw [kind] at symbol
    split at symbol
    · next dots => exact String.ofList_toList.symm.trans (congrArg String.ofList dots)
    · cases symbol

theorem mem_symbols (whole : w.IsWhole dialect) (kind : w.1 = .symbol) :
    w.2.toList ∈ symbols dialect := by
  rcases whole.kind_cases with name | other | ⟨member, -⟩
  · have names := wordKind_cases dialect.contextualGoto w.2
    rw [← name, kind] at names
    simp at names
  · simp [kind] at other
  · exact member

end Word.IsWhole

section Symbols

theorem not_mem_symbols_of_mem {text : String} (h : text ∈ ["and", "or", "not"]) :
    text.toList ∉ symbols dialect := by
  have all : ∀ labels division bitwise : Bool, ∀ t ∈ ["and", "or", "not"],
      t.toList ∉ symbols ⟨labels, false, division, bitwise, false, false, false⟩ := by decide
  exact all dialect.labels dialect.integerDivision dialect.bitwiseOperators text h

theorem labels_of_mem_symbols (h : "::".toList ∈ symbols dialect) : dialect.labels := by
  have all : ∀ division bitwise : Bool,
      "::".toList ∉ symbols ⟨false, false, division, bitwise, false, false, false⟩ := by decide
  by_contra none
  have absent := all dialect.integerDivision dialect.bitwiseOperators
  rw [← Bool.eq_false_iff.mpr none] at absent
  exact absent h

end Symbols

section Tokens

variable {t : Token} (whole : Word.IsWhole dialect t.spelling)

include whole

theorem Identifier.isProper_ofToken (named : t.kind = .identifier) :
    (Identifier.ofToken t).IsProper dialect := by
  have same : (Identifier.ofToken t).word = t.spelling := by
    rw [Identifier.word, ← named]
    rfl
  rw [IsProper, same]
  exact whole.isLexeme

theorem Literal.isProper_ofToken? {value : Literal} (found : ofToken? t = some value) :
    value.IsProper dialect := by
  unfold ofToken? at found
  split at found
  · next kind =>
    cases found
    exact whole.text_of_nil kind
  · next kind =>
    cases found
    have text : t.text ∈ ["true", "false"] := whole.text_of_boolean kind
    simp only [List.mem_cons, List.not_mem_nil, or_false] at text
    rcases text with text | text <;> simp [IsProper, text]
  · next kind =>
    cases found
    exact (show Word.IsWhole dialect (.number, t.text) from kind ▸ whole).isLexeme
  · next kind =>
    cases found
    exact (show Word.IsWhole dialect (.string, t.text) from kind ▸ whole).isLexeme
  · next kind =>
    cases found
    exact whole.text_of_vararg kind
  · cases found

/-- The kind of an operator follows from its text. -/
theorem kind_of_isOperatorKind (kind : Grammar.isOperatorKind t.kind) :
    t.kind = if t.text ∈ ["and", "or", "not"] then .logicalOperator else .symbol := by
  simp only [Grammar.isOperatorKind, Bool.or_eq_true, beq_iff_eq] at kind
  rcases kind with symbol | logical
  · have member : t.text.toList ∈ symbols dialect := whole.mem_symbols symbol
    rw [if_neg fun h => not_mem_symbols_of_mem h member, symbol]
  · have member : t.text ∈ ["and", "or", "not"] := whole.text_of_logicalOperator logical
    rw [if_pos member, logical]

theorem UnaryOperator.isLexeme_word {operator : UnaryOperator}
    (found : Grammar.unaryOperator? t = some operator) : IsLexeme dialect operator.word := by
  unfold Grammar.unaryOperator? at found
  split at found
  · next kind =>
    have text : operator.text = t.text := by simpa using List.find?_some found
    have same : operator.word = t.spelling := by
      rw [Token.spelling, kind_of_isOperatorKind whole kind, ← text]
      cases operator <;> rfl
    exact same ▸ whole.isLexeme
  · cases found

theorem BinaryOperator.isLexeme_word {operator : BinaryOperator}
    (found : Grammar.binaryOperator? t = some operator) : IsLexeme dialect operator.word := by
  unfold Grammar.binaryOperator? at found
  split at found
  · next kind =>
    have text : operator.text = t.text := by simpa using List.find?_some found
    have same : operator.word = t.spelling := by
      rw [Token.spelling, kind_of_isOperatorKind whole kind, ← text]
      cases operator <;> rfl
    exact same ▸ whole.isLexeme
  · cases found

end Tokens

end LuaFrontend
