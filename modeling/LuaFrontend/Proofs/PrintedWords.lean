import LuaFrontend.Proofs.PrintedTokens
import LuaFrontend.Proofs.ProperTree

set_option autoImplicit false

namespace LuaFrontend

open LuaFrontend.Lexeme

variable {dialect : Dialect}

/-- The word is read whole, and the grammar sees it. -/
structure Word.IsProper (dialect : Dialect) (w : Word) : Prop where
  whole : w.IsWhole dialect
  isSeen : w.1 ≠ .comment

section FixedWords

theorem isSpace_of_isAlpha {c : Char} (h : c.isAlpha) : isSpace c = false := by
  by_contra space
  have other : c.isAlpha = false := eq_false_of_isSpace (Bool.not_eq_false _ ▸ space) rfl
  rw [other] at h
  cases h

theorem wordKind_ne_comment (contextual : Bool) (text : String) :
    wordKind contextual text ≠ .comment := by
  unfold wordKind
  repeat' split
  all_goals decide

/-- A word of letters is of the kind that its spelling tells. -/
theorem isProper_letters {w : Word} (some : w.2.toList.isEmpty = false)
    (letters : w.2.toList.all Char.isAlpha) (kind : wordKind dialect.contextualGoto w.2 = w.1) :
    w.IsProper dialect := by
  have letter := List.all_eq_true.mp letters
  have part : ∀ d ∈ w.2.toList, isNamePart dialect.extendedIdentifiers d := fun d member => by
    simp [isNamePart, isNameStart, letter d member]
  obtain ⟨c, s, same⟩ := List.exists_cons_of_ne_nil (List.isEmpty_eq_false_iff.mp some)
  have first : c.isAlpha := letter c (same ▸ List.mem_cons_self)
  have name : start dialect w.2.toList = .name := by
    rw [same]
    simp [start, isNameStart, first]
  refine ⟨⟨⟨c, s, same, isSpace_of_isAlpha first⟩, ?_⟩, kind ▸ wordKind_ne_comment _ _⟩
  rw [Lexeme.read, name]
  change readName dialect w.2.toList = _
  rw [readName, List.takeWhile_eq_self_iff.mpr part, List.dropWhile_eq_nil_iff.mpr part,
    String.ofList_toList, kind]

/-- The words that the language spells with letters. -/
def letterWords : List String := "nil" :: "true" :: "false" :: reservedWords

theorem isProper_letterWord {w : Word} (h : w.2 ∈ letterWords)
    (kind : wordKind dialect.contextualGoto w.2 = w.1) : w.IsProper dialect := by
  have letters : ∀ t ∈ letterWords, t.toList.isEmpty = false ∧ t.toList.all Char.isAlpha := by
    decide
  exact isProper_letters (letters w.2 h).1 (letters w.2 h).2 kind

theorem isProper_keyword {text : String} (h : text ∈ reservedWords) (other : text ≠ "goto") :
    (Word.keyword text).IsProper dialect := by
  have kinds : ∀ contextual : Bool, ∀ t ∈ reservedWords, t ≠ "goto" →
      wordKind contextual t = .keyword := by decide
  have member : text ∈ letterWords := by simp [letterWords, h]
  exact isProper_letterWord member (kinds _ text h other)

theorem isProper_gotoSpelling : (gotoSpelling dialect).IsProper dialect := by
  have member : "goto" ∈ letterWords := by decide
  exact isProper_letterWord member rfl

/-- The signs that every dialect has. -/
def signs : List String := ["(", ")", "\x7b", "\x7d", "[", "]", "=", ",", ";", ".", ":"]

/-- A symbol that is no part of a longer one is read whole. -/
theorem isProper_symbol {w : Word} (first : w.2.toList.head?.any (!isSpace ·))
    (isSymbol : start dialect w.2.toList = .symbol)
    (found : symbol? dialect w.2.toList = some w.2.toList)
    (kind : w.1 = if w.2.toList = ['.', '.', '.'] then .vararg else .symbol) :
    w.IsProper dialect := by
  cases same : w.2.toList with
  | nil =>
    rw [same] at first
    cases first
  | cons c s =>
    rw [same] at first isSymbol found kind
    have seen : w.1 ≠ .comment := by
      rw [kind]
      split <;> decide
    refine ⟨⟨⟨c, s, same, Bool.not_eq_true' _ ▸ first⟩, ?_⟩, seen⟩
    rw [same, Lexeme.read, isSymbol]
    change readSymbol dialect (c :: s) = _
    rw [readSymbol, found, kind]
    simp only [List.drop_length]

theorem isProper_sign {text : String} (h : text ∈ signs) : (Word.sign text).IsProper dialect := by
  have texts : ∀ t ∈ signs, t.toList ≠ ['.', '.', '.'] ∧ t.toList.head?.any (!isSpace ·) := by
    decide
  have starts : ∀ extended : Bool, ∀ t ∈ signs,
      start ⟨false, false, false, false, false, false, extended⟩ t.toList = .symbol := by decide
  have symbols : ∀ labels division bitwise : Bool, ∀ t ∈ signs,
      symbol? ⟨labels, false, division, bitwise, false, false, false⟩ t.toList = some t.toList := by
    decide
  refine isProper_symbol (texts text h).2 (starts dialect.extendedIdentifiers text h)
    (symbols dialect.labels dialect.integerDivision dialect.bitwiseOperators text h) ?_
  exact (if_neg (texts text h).1).symm

theorem isProper_vararg : Word.IsProper dialect (.vararg, "...") := by
  have starts : ∀ extended : Bool,
      start ⟨false, false, false, false, false, false, extended⟩ ['.', '.', '.'] = .symbol := by
    decide
  exact isProper_symbol rfl (starts dialect.extendedIdentifiers) rfl rfl

theorem isProper_colons (labels : dialect.labels) : (Word.sign "::").IsProper dialect := by
  have starts : ∀ extended : Bool,
      start ⟨false, false, false, false, false, false, extended⟩ [':', ':'] = .symbol := by
    decide
  have symbols : ∀ division bitwise : Bool,
      symbol? ⟨true, false, division, bitwise, false, false, false⟩ [':', ':'] =
        some [':', ':'] := by
    decide
  have found : symbol? dialect [':', ':'] = some [':', ':'] := by
    have all := symbols dialect.integerDivision dialect.bitwiseOperators
    rw [← labels] at all
    exact all
  exact isProper_symbol rfl (starts dialect.extendedIdentifiers) found rfl

end FixedWords

section Trees

theorem Literal.isProper_word {value : Literal} (h : value.IsProper dialect) :
    value.word.IsProper dialect := by
  obtain ⟨kind, raw, span⟩ := value
  cases kind with
  | nil =>
    cases (show raw = "nil" from h)
    have member : "nil" ∈ letterWords := by decide
    exact isProper_letterWord member rfl
  | boolean truth =>
    cases (show raw = if truth then "true" else "false" from h)
    have members : "true" ∈ letterWords ∧ "false" ∈ letterWords := by decide
    cases truth with
    | true => exact isProper_letterWord members.1 rfl
    | false => exact isProper_letterWord members.2 rfl
  | number => exact ⟨isWhole_of_isLexeme h, nofun⟩
  | string => exact ⟨isWhole_of_isLexeme h, nofun⟩
  | vararg =>
    cases (show raw = "..." from h)
    exact isProper_vararg

/-- All of the words are proper. -/
def Proper (dialect : Dialect) (words : List Word) : Prop := ∀ w ∈ words, w.IsProper dialect

namespace Proper

variable {words more : List Word} {w : Word}

@[simp] theorem nil : Proper dialect [] := fun _ none => nomatch none

@[simp] theorem cons_iff :
    Proper dialect (w :: words) ↔ w.IsProper dialect ∧ Proper dialect words :=
  List.forall_mem_cons

@[simp] theorem append_iff :
    Proper dialect (words ++ more) ↔ Proper dialect words ∧ Proper dialect more :=
  List.forall_mem_append

@[simp] theorem flatMap_iff {α : Type} {f : α → List Word} {items : List α} :
    Proper dialect (items.flatMap f) ↔ ∀ item ∈ items, Proper dialect (f item) := by
  simp only [Proper, List.mem_flatMap]
  constructor
  · intro h item member w inside
    exact h w ⟨item, member, inside⟩
  · rintro h w ⟨item, member, inside⟩
    exact h item member w inside

/-- Items between commas. -/
theorem commas {items : List (List Word)} (h : ∀ item ∈ items, Proper dialect item) :
    Proper dialect (commas items) := by
  cases items with
  | nil => exact nil
  | cons first others =>
    have comma : (Word.sign ",").IsProper dialect := isProper_sign (by decide)
    rw [LuaFrontend.commas, append_iff, flatMap_iff]
    refine ⟨h first List.mem_cons_self, fun item member => cons_iff.mpr ⟨comma, ?_⟩⟩
    exact h item (List.mem_cons_of_mem first member)

end Proper

theorem Identifier.isProper_word {id : Identifier} (h : id.IsProper dialect) :
    id.word.IsProper dialect :=
  ⟨isWhole_of_isLexeme h, nofun⟩

theorem UnaryOperator.isProper_word {operator : UnaryOperator}
    (h : IsLexeme dialect operator.word) : operator.word.IsProper dialect := by
  refine ⟨isWhole_of_isLexeme h, ?_⟩
  cases operator <;> decide

theorem BinaryOperator.isProper_word {operator : BinaryOperator}
    (h : IsLexeme dialect operator.word) : operator.word.IsProper dialect := by
  refine ⟨isWhole_of_isLexeme h, ?_⟩
  cases operator <;> decide

theorem proper_names {names : List Identifier} (h : ∀ id ∈ names, id.IsProper dialect) :
    Proper dialect (commas (names.map fun id => [id.word])) := by
  refine .commas fun item member => ?_
  obtain ⟨id, inside, rfl⟩ := List.mem_map.mp member
  simpa using Identifier.isProper_word (h id inside)

theorem proper_parameterWords {names : List Identifier} (isVararg : Bool)
    (h : ∀ id ∈ names, id.IsProper dialect) : Proper dialect (parameterWords names isVararg) := by
  refine .commas fun item member => ?_
  rcases List.mem_append.mp member with name | dots
  · obtain ⟨id, inside, rfl⟩ := List.mem_map.mp name
    simpa using Identifier.isProper_word (h id inside)
  · cases isVararg with
    | false => cases dots
    | true =>
      obtain rfl := List.mem_singleton.mp dots
      simpa using isProper_vararg

theorem FunctionName.proper_words {name : FunctionName} (h : name.IsProper dialect) :
    Proper dialect name.words := by
  obtain ⟨root, fields, method⟩ := name
  obtain ⟨ofRoot, ofFields, ofMethod⟩ := h
  have point : (Word.sign ".").IsProper dialect := isProper_sign (by decide)
  have colon : (Word.sign ":").IsProper dialect := isProper_sign (by decide)
  have last : Proper dialect (methodWords method) := by
    cases method with
    | none => exact .nil
    | some id => simpa [methodWords, colon] using Identifier.isProper_word (ofMethod id rfl)
  simp only [words, List.cons_append, Proper.cons_iff, Proper.append_iff, Proper.flatMap_iff]
  refine ⟨Identifier.isProper_word ofRoot, fun id member => ?_, last⟩
  simpa [point] using Identifier.isProper_word (ofFields id member)

mutual

theorem Expression.proper_words : ∀ {e : Expression}, e.IsProper dialect →
    Proper dialect (e.words dialect)
  | .literal value, h => by simpa [Expression.words] using Literal.isProper_word h
  | .name id, h => by simpa [Expression.words] using Identifier.isProper_word h
  | .group inner, h => by
    have inside := Expression.proper_words (e := inner) h
    simp (disch := decide) [Expression.words, isProper_sign, inside]
  | .unary operator operand, ⟨word, _, h⟩ => by
    simpa [Expression.words, UnaryOperator.isProper_word word] using Expression.proper_words h
  | .binary operator left right, ⟨word, _, _, ofLeft, ofRight⟩ => by
    have first := Expression.proper_words ofLeft
    have second := Expression.proper_words ofRight
    simp [Expression.words, BinaryOperator.isProper_word word, first, second]
  | .index base key, ⟨_, ofBase, ofKey⟩ => by
    have first := Expression.proper_words ofBase
    have second := Expression.proper_words ofKey
    simp (disch := decide) [Expression.words, isProper_sign, first, second]
  | .member base field, ⟨_, ofBase, ofField⟩ => by
    have first := Expression.proper_words ofBase
    have second := Identifier.isProper_word ofField
    simp (disch := decide) [Expression.words, isProper_sign, first, second]
  | .call callee arguments, ⟨_, ofCallee, ofArguments⟩ => by
    have first := Expression.proper_words ofCallee
    have second := Arguments.proper_words ofArguments
    simp [Expression.words, first, second]
  | .methodCall object method arguments, ⟨_, ofObject, ofMethod, ofArguments⟩ => by
    have first := Expression.proper_words ofObject
    have second := Arguments.proper_words ofArguments
    simp (disch := decide) [Expression.words, isProper_sign, first,
      Identifier.isProper_word ofMethod, second]
  | .table fields, h => by
    have each : TableField.IsProperAll dialect fields := h
    have inside := Proper.commas (TableField.proper_wordsEach each)
    rw [TableField.wordsEach_eq] at inside
    simp (disch := decide) [Expression.words, isProper_sign, inside]
  | .function value, h => by
    have inside := FunctionBody.proper_words (show value.IsProper dialect from h)
    simp (disch := decide) [Expression.words, isProper_keyword, inside]

theorem Expression.proper_wordsEach : ∀ {values : List Expression},
    Expression.IsProperAll dialect values →
      ∀ item ∈ Expression.wordsEach dialect values, Proper dialect item
  | [], _ => by simp
  | e :: others, ⟨first, rest⟩ => List.forall_mem_cons.mpr
    ⟨Expression.proper_words first, Expression.proper_wordsEach rest⟩

theorem Arguments.proper_words : ∀ {arguments : Arguments}, arguments.IsProper dialect →
    Proper dialect (arguments.words dialect)
  | .list values, h => by
    have each : Expression.IsProperAll dialect values := h
    have inside := Proper.commas (Expression.proper_wordsEach each)
    rw [Expression.wordsEach_eq] at inside
    simp (disch := decide) [Arguments.words, isProper_sign, inside]
  | .table fields, h => by
    have each : TableField.IsProperAll dialect fields := h
    have inside := Proper.commas (TableField.proper_wordsEach each)
    rw [TableField.wordsEach_eq] at inside
    simp (disch := decide) [Arguments.words, isProper_sign, inside]
  | .string value, ⟨_, h⟩ => by simpa [Arguments.words] using Literal.isProper_word h

theorem TableField.proper_words : ∀ {f : TableField}, f.IsProper dialect →
    Proper dialect (f.words dialect)
  | .value value, h => Expression.proper_words (e := value) h
  | .keyed key value, ⟨ofKey, ofValue⟩ => by
    have first := Expression.proper_words ofKey
    have second := Expression.proper_words ofValue
    simp (disch := decide) [TableField.words, isProper_sign, first, second]
  | .named name value, ⟨ofName, ofValue⟩ => by
    have first := Identifier.isProper_word ofName
    have second := Expression.proper_words ofValue
    simp (disch := decide) [TableField.words, isProper_sign, first, second]

theorem TableField.proper_wordsEach : ∀ {fields : List TableField},
    TableField.IsProperAll dialect fields →
      ∀ item ∈ TableField.wordsEach dialect fields, Proper dialect item
  | [], _ => by simp
  | f :: others, ⟨first, rest⟩ => List.forall_mem_cons.mpr
    ⟨TableField.proper_words first, TableField.proper_wordsEach rest⟩

theorem FunctionBody.proper_words : ∀ {value : FunctionBody}, value.IsProper dialect →
    Proper dialect (value.words dialect)
  | .mk parameters isVararg block, ⟨ofParameters, ofBlock⟩ => by
    have first := proper_parameterWords isVararg ofParameters
    have second := Statement.proper_wordsAll ofBlock
    simp (disch := decide) [FunctionBody.words, isProper_sign, isProper_keyword, first, second]

theorem Clause.proper_words : ∀ {c : Clause}, c.IsProper dialect → Proper dialect (c.words dialect)
  | .mk condition block, ⟨ofCondition, ofBlock⟩ => by
    have first := Expression.proper_words ofCondition
    have second := Statement.proper_wordsAll ofBlock
    simp (disch := decide) [Clause.words, isProper_keyword, first, second]

theorem Clause.proper_wordsAll : ∀ {clauses : List Clause}, Clause.IsProperAll dialect clauses →
    Proper dialect (Clause.wordsAll dialect clauses)
  | [], _ => Proper.nil
  | c :: others, ⟨ofFirst, ofOthers⟩ => by
    have first := Clause.proper_words ofFirst
    have rest := Clause.proper_wordsAll ofOthers
    simp (disch := decide) only [Clause.wordsAll, Proper.cons_iff, Proper.append_iff,
      List.cons_append, isProper_keyword, first, rest, and_self]

theorem Statement.proper_words : ∀ {s : Statement}, s.IsProper dialect →
    Proper dialect (s.words dialect)
  | .localVariables names values, ⟨_, ofNames, ofValues⟩ => by
    have first := proper_names ofNames
    have second := Proper.commas (Expression.proper_wordsEach ofValues)
    have last : Proper dialect (if values.isEmpty then [] else
        Word.sign "=" :: commas (Expression.wordsEach dialect values)) := by
      split
      · exact .nil
      · exact Proper.cons_iff.mpr ⟨isProper_sign (by decide), second⟩
    simp (disch := decide) only [Statement.words, List.cons_append, Proper.cons_iff,
      Proper.append_iff, isProper_keyword, first, last, and_self]
  | .assignment targets values, ⟨_, _, _, ofTargets, ofValues⟩ => by
    have first := Proper.commas (Expression.proper_wordsEach ofTargets)
    have second := Proper.commas (Expression.proper_wordsEach ofValues)
    simp (disch := decide) only [Statement.words, Proper.cons_iff, Proper.append_iff, isProper_sign,
      first, second, and_self]
  | .call expression, ⟨_, h⟩ => by
    simpa [Statement.words] using Expression.proper_words h
  | .conditional clauses otherwise, ⟨_, ofClauses, ofOtherwise⟩ => by
    have first := Clause.proper_wordsAll ofClauses
    have second := Statement.proper_wordsElse ofOtherwise
    have last : Proper dialect (Clause.wordsAll dialect clauses).tail :=
      fun w member => first w (List.mem_of_mem_tail member)
    simp (disch := decide) only [Statement.words, List.cons_append, Proper.cons_iff,
      Proper.append_iff, Proper.nil, isProper_keyword, second, last, and_self]
  | .whileLoop condition block, ⟨ofCondition, ofBlock⟩ => by
    have first := Expression.proper_words ofCondition
    have second := Statement.proper_wordsAll ofBlock
    simp (disch := decide) [Statement.words, isProper_keyword, first, second]
  | .repeatLoop block condition, ⟨ofBlock, ofCondition⟩ => by
    have first := Statement.proper_wordsAll ofBlock
    have second := Expression.proper_words ofCondition
    simp (disch := decide) [Statement.words, isProper_keyword, first, second]
  | .numericFor counter first last step block,
      ⟨ofCounter, ofFirst, ofLast, ofStep, ofBlock⟩ => by
    have counted := Identifier.isProper_word ofCounter
    have start := Expression.proper_words ofFirst
    have stop := Expression.proper_words ofLast
    have change := Expression.proper_wordsStep ofStep
    have inside := Statement.proper_wordsAll ofBlock
    simp (disch := decide) [Statement.words, isProper_keyword, isProper_sign, counted, start, stop,
      change, inside]
  | .genericFor names iterators block, ⟨_, _, ofNames, ofIterators, ofBlock⟩ => by
    have first := proper_names ofNames
    have second := Proper.commas (Expression.proper_wordsEach ofIterators)
    have inside := Statement.proper_wordsAll ofBlock
    simp (disch := decide) only [Statement.words, List.cons_append, Proper.cons_iff,
      Proper.append_iff, Proper.nil, isProper_keyword, first, second, inside, and_self]
  | .doBlock block, h => by
    have inside := Statement.proper_wordsAll (show Statement.IsProperAll dialect block from h)
    simp (disch := decide) [Statement.words, isProper_keyword, inside]
  | .returning values, h => by
    have each : Expression.IsProperAll dialect values := h
    have inside := Proper.commas (Expression.proper_wordsEach each)
    simp (disch := decide) only [Statement.words, Proper.cons_iff, isProper_keyword, inside,
      and_self]
  | .breakLoop, _ => by simp (disch := decide) [Statement.words, isProper_keyword]
  | .goto label, ⟨_, h⟩ => by
    simpa [Statement.words, isProper_gotoSpelling] using Identifier.isProper_word h
  | .label name, ⟨labels, h⟩ => by
    simpa [Statement.words, isProper_colons labels] using Identifier.isProper_word h
  | .localFunction name value, ⟨ofName, h⟩ => by
    have inside := FunctionBody.proper_words h
    simp (disch := decide) [Statement.words, isProper_keyword, Identifier.isProper_word ofName,
      inside]
  | .function name value, ⟨ofName, h⟩ => by
    have inside := FunctionBody.proper_words h
    simp (disch := decide) [Statement.words, isProper_keyword, FunctionName.proper_words ofName,
      inside]

theorem Statement.proper_wordsElse : ∀ {otherwise : Option (List Statement)},
    Statement.IsProperElse dialect otherwise →
      Proper dialect (Statement.wordsElse dialect otherwise)
  | none, _ => Proper.nil
  | some block, h => by
    have inside := Statement.proper_wordsAll (show Statement.IsProperAll dialect block from h)
    simp (disch := decide) [Statement.wordsElse, isProper_keyword, inside]

theorem Expression.proper_wordsStep : ∀ {step : Option Expression},
    Expression.IsProperStep dialect step → Proper dialect (Expression.wordsStep dialect step)
  | none, _ => Proper.nil
  | some e, h => by
    have inside := Expression.proper_words (e := e) h
    simp (disch := decide) [Expression.wordsStep, isProper_sign, inside]

theorem Statement.proper_wordsAll : ∀ {block : List Statement},
    Statement.IsProperAll dialect block → Proper dialect (Statement.wordsAll dialect block)
  | [], _ => Proper.nil
  | s :: others, ⟨ofFirst, _, ofOthers⟩ => by
    have first := Statement.proper_words ofFirst
    have rest := Statement.proper_wordsAll ofOthers
    simp (disch := decide) [Statement.wordsAll, isProper_sign, first, rest]

end

end Trees

end LuaFrontend
