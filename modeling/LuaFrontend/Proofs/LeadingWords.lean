import LuaFrontend.Proofs.ProperTree
import LuaFrontend.Proofs.WordRuns

set_option autoImplicit false

namespace LuaFrontend

open LuaFrontend.Grammar

namespace Word

/-- A word that goes on with a name or a group. -/
def isSuffix (w : Word) : Bool :=
  w.isText "[" || w.isText "." || w.isText ":" || w.isText "(" || w.isText "\x7b" ||
    w.1 == .string

/-- The operator that the word is between two operands. -/
def binary? (w : Word) : Option BinaryOperator := binaryOperator? (w.token {})

/-- The operator that the word is in front of an operand. -/
def unary? (w : Word) : Option UnaryOperator := unaryOperator? (w.token {})

/-- A word that does not go on with an expression. -/
def closes (w : Word) : Bool := !w.isSuffix && w.binary?.isNone

/-- A word that ends a block. -/
def closesBlock (w : Word) : Bool := !isInBlock (w.token {})

/-- What names and groups begin with. -/
def isBase (w : Word) : Bool := w.1 == .identifier || w == sign "("

/-- What expressions begin with, apart from names, numbers and strings. -/
def openings : List Word :=
  [(.nil, "nil"), (.boolean, "true"), (.boolean, "false"), (.vararg, "..."), sign "(",
    sign "\x7b", keyword "function", UnaryOperator.negate.word, UnaryOperator.not.word,
    UnaryOperator.length.word, UnaryOperator.bitwiseNot.word]

/-- What expressions begin with. -/
def opens (w : Word) : Bool :=
  w.1 == .identifier || w.1 == .number || w.1 == .string || openings.contains w

theorem binary?_word (operator : BinaryOperator) : operator.word.binary? = some operator := by
  cases operator <;> rfl

theorem unary?_word (operator : UnaryOperator) : operator.word.unary? = some operator := by
  cases operator <;> rfl

theorem isSuffix_word (operator : BinaryOperator) : operator.word.isSuffix = false := by
  cases operator <;> rfl

theorem isSome_word (operator : BinaryOperator) : operator.word.isSome := by
  cases operator <;> rfl

theorem isSome_word_unary (operator : UnaryOperator) : operator.word.isSome := by
  cases operator <;> rfl

theorem opens_word (operator : UnaryOperator) : operator.word.opens := by
  cases operator <;> decide

theorem opens_of_isBase {w : Word} (h : w.isBase) : w.opens := by
  simp only [isBase, Bool.or_eq_true, beq_iff_eq] at h
  rcases h with name | rfl
  · simp [opens, name]
  · decide

theorem isBase_cases {w : Word} (h : w.isBase) :
    (∃ name, w = (.identifier, name)) ∨ w = sign "(" := by
  simp only [isBase, Bool.or_eq_true, beq_iff_eq] at h
  rcases h with name | rfl
  · exact .inl ⟨w.2, by rw [← name]⟩
  · exact .inr rfl

/-- Names and groups are no other kind of operand. -/
theorem primary_of_isBase {w : Word} (h : w.isBase) :
    w.unary? = none ∧ (∀ start, Literal.ofToken? (w.token start) = none) ∧
      w.isText "function" = false ∧ w.isText "\x7b" = false := by
  obtain ⟨name, rfl⟩ | rfl := isBase_cases h
  · exact ⟨rfl, fun _ => rfl, rfl, rfl⟩
  · exact ⟨rfl, fun _ => rfl, rfl, rfl⟩

theorem opens_cases {w : Word} (h : w.opens) :
    Pattern.isFreelySpelled w.1 ∧ w.1 ≠ .endOfInput ∨ w ∈ openings := by
  simp only [opens, Bool.or_eq_true, beq_iff_eq, List.contains_iff_mem] at h
  rcases h with ((kind | kind) | kind) | fixed
  · exact .inl (by rw [kind]; decide)
  · exact .inl (by rw [kind]; decide)
  · exact .inl (by rw [kind]; decide)
  · exact .inr fixed

/-- No expression begins with a word that none of the openings is. -/
theorem isText_of_opens {w : Word} {text : String} (h : w.opens)
    (other : ∀ v ∈ openings, v.isText text = false) : w.isText text = false := by
  obtain ⟨free, -⟩ | fixed := opens_cases h
  · exact isText_of_isFreelySpelled free text
  · exact other w fixed

theorem closesBlock_of_opens {w : Word} (h : w.opens) : w.closesBlock = false := by
  obtain ⟨free, more⟩ | fixed := opens_cases h
  · obtain ⟨kind, text⟩ := w
    cases kind <;> first | exact absurd rfl more | rfl | cases free
  · have all : ∀ v ∈ openings, v.closesBlock = false := by decide
    exact all w fixed

theorem closes_of_identifier {w : Word} (h : w.1 = .identifier) : w.closes := by
  obtain ⟨kind, text⟩ := w
  cases h
  rfl

theorem closes_of_isSuffix {w : Word} (h : w.isSuffix) : w.closes = false := by
  simp [closes, h]

theorem closes_word (operator : BinaryOperator) : operator.word.closes = false := by
  cases operator <;> rfl

theorem isSuffix_of_closes {w : Word} (h : w.closes) : w.isSuffix = false := by
  simp only [closes, Bool.and_eq_true, Bool.not_eq_true'] at h
  exact h.1

theorem binary?_of_closes {w : Word} (h : w.closes) : w.binary? = none := by
  simp only [closes, Bool.and_eq_true, Option.isNone_iff_eq_none] at h
  exact h.2

theorem isInBlock_token (w : Word) (start : Position) :
    isInBlock (w.token start) = !w.closesBlock :=
  (Bool.not_not _).symm

/-- Besides the end of the text, four keywords end a block. -/
theorem isText_of_closesBlock {w : Word} {text : String} (h : w.closesBlock)
    (other : text ∉ ["else", "elseif", "end", "until"]) : w.isText text = false := by
  by_contra same
  obtain ⟨kind, spelled⟩ := w
  simp only [isText, Bool.not_eq_false, Bool.and_eq_true, beq_iff_eq] at same
  obtain ⟨fixed, rfl⟩ := same
  by_cases last : kind = .endOfInput
  · subst last
    cases fixed
  · have more : (token (kind, spelled) {}).isEnd = false := beq_eq_false_iff_ne.mpr last
    rw [closesBlock, isInBlock, more, Bool.not_false, Bool.true_and, Bool.not_not] at h
    exact other (List.contains_iff_mem.mp (Bool.and_eq_true_iff.mp h).2)

/-- An equals sign does not go on with an expression. -/
theorem isText_equals_of_closes {w : Word} (h : w.closes = false) : w.isText "=" = false := by
  by_contra equals
  obtain ⟨kind, text⟩ := w
  simp only [isText, Bool.not_eq_false, Bool.and_eq_true, beq_iff_eq] at equals
  obtain ⟨fixed, rfl⟩ := equals
  cases kind <;> first | exact absurd h (by decide) | exact absurd fixed (by decide)

end Word

/-- The first of the words is of this sort, and if it is a name then no word behind it closes an
expression. -/
def Begins (first : Word → Bool) (words : List Word) : Prop :=
  ∃ w others, words = w :: others ∧ first w ∧
    (w.1 = .identifier → ∀ u ∈ others.head?, u.closes = false)

namespace Begins

variable {first : Word → Bool} {words : List Word} {w : Word}

theorem single (h : first w) : Begins first [w] :=
  ⟨w, [], rfl, h, fun _ _ none => nomatch none⟩

theorem of_other (h : first w) (other : w.1 ≠ .identifier) (others : List Word) :
    Begins first (w :: others) :=
  ⟨w, others, rfl, h, fun name => absurd name other⟩

theorem append (h : Begins first words) (goesOn : w.closes = false) (others : List Word) :
    Begins first (words ++ w :: others) := by
  obtain ⟨v, behind, rfl, opens, next⟩ := h
  refine ⟨v, behind ++ w :: others, rfl, opens, fun name u isNext => ?_⟩
  cases behind with
  | nil =>
    cases isNext
    exact goesOn
  | cons x behind => exact next name u isNext

theorem mono {second : Word → Bool} (h : Begins first words) (sub : ∀ w, first w → second w) :
    Begins second words := by
  obtain ⟨v, behind, same, opens, next⟩ := h
  exact ⟨v, behind, same, sub v opens, next⟩

end Begins

variable {dialect : Dialect}

/-- Arguments begin with a parenthesis, a brace or a string. -/
theorem Arguments.words_eq_cons {arguments : Arguments} (h : arguments.IsProper dialect) :
    ∃ w others, arguments.words dialect = w :: others ∧ w.isSuffix ∧ w.isText "[" = false ∧
      w.isText "." = false ∧ w.isText ":" = false := by
  cases arguments with
  | list values => exact ⟨_, _, rfl, rfl, rfl, rfl, rfl⟩
  | table fields => exact ⟨_, _, rfl, rfl, rfl, rfl, rfl⟩
  | string value =>
    obtain ⟨kind, raw, span⟩ := value
    obtain ⟨rfl, -⟩ := h
    exact ⟨_, _, rfl, rfl, rfl, rfl, rfl⟩

theorem Literal.opens_word {value : Literal} (h : value.IsProper dialect) : value.word.opens := by
  obtain ⟨kind, raw, span⟩ := value
  cases kind with
  | nil =>
    cases (show raw = "nil" from h)
    rfl
  | boolean truth =>
    cases (show raw = if truth then "true" else "false" from h)
    cases truth <;> rfl
  | number => rfl
  | string => rfl
  | vararg =>
    cases (show raw = "..." from h)
    rfl

theorem Literal.isIdentifier_word (value : Literal) : value.word.1 ≠ .identifier := by
  obtain ⟨kind, raw, span⟩ := value
  cases kind <;> exact TokenKind.noConfusion

namespace Expression

theorem begins_base : ∀ {e : Expression}, e.isSuffixable → e.IsProper dialect →
    Begins Word.isBase (e.words dialect)
  | .name id, _, _ => .single rfl
  | .group inner, _, _ => .of_other rfl (by decide) _
  | .index base key, _, ⟨suffixable, proper, _⟩ => by
    simp only [words, List.append_assoc, List.cons_append]
    exact (begins_base suffixable proper).append rfl _
  | .member base field, _, ⟨suffixable, proper, _⟩ => by
    simp only [words]
    exact (begins_base suffixable proper).append rfl _
  | .call callee arguments, _, ⟨suffixable, proper, ofArguments⟩ => by
    obtain ⟨w, others, same, suffix, -⟩ := Arguments.words_eq_cons ofArguments
    simp only [words, same]
    exact (begins_base suffixable proper).append (Word.closes_of_isSuffix suffix) _
  | .methodCall object method arguments, _, ⟨suffixable, proper, _⟩ => by
    simp only [words]
    exact (begins_base suffixable proper).append rfl _

theorem begins : ∀ {e : Expression}, e.IsProper dialect → Begins Word.opens (e.words dialect)
  | .literal value, proper =>
    .of_other (Literal.opens_word proper) (Literal.isIdentifier_word value) _
  | .unary operator operand, _ =>
    .of_other (Word.opens_word operator) (by cases operator <;> decide) _
  | .binary operator left right, ⟨_, _, _, proper, _⟩ => by
    simp only [words]
    exact (begins proper).append (Word.closes_word operator) _
  | .table fields, _ => .of_other (by decide) (by decide) _
  | .function value, _ => .of_other (by decide) (by decide) _
  | .name id, proper => (begins_base rfl proper).mono fun _ => Word.opens_of_isBase
  | .group inner, proper => (begins_base rfl proper).mono fun _ => Word.opens_of_isBase
  | .index base key, proper => (begins_base rfl proper).mono fun _ => Word.opens_of_isBase
  | .member base field, proper => (begins_base rfl proper).mono fun _ => Word.opens_of_isBase
  | .call callee arguments, proper => (begins_base rfl proper).mono fun _ => Word.opens_of_isBase
  | .methodCall object method arguments, proper =>
    (begins_base rfl proper).mono fun _ => Word.opens_of_isBase

/-- Behind the expression the word neither goes on with a suffix nor is an operator that binds
tighter than one whose right operand ends here. -/
def StopsAt (e : Expression) (w : Word) : Prop :=
  w.isSuffix = false ∧ ∀ operator ∈ w.binary?, e.stops operator

theorem stopsAt_of_closes (e : Expression) {w : Word} (h : w.closes) : e.StopsAt w := by
  refine ⟨Word.isSuffix_of_closes h, ?_⟩
  rw [Word.binary?_of_closes h]
  intro _ none
  cases none

theorem stopsAt_word {e : Expression} {operator : BinaryOperator} (h : e.stops operator) :
    e.StopsAt operator.word := by
  refine ⟨Word.isSuffix_word operator, ?_⟩
  rw [Word.binary?_word]
  rintro _ ⟨⟩
  exact h

end Expression

end LuaFrontend
