import LuaFrontend.Proofs.TokenSequence
import LuaFrontend.Tree.Basic

set_option autoImplicit false

/-
Printing a tree: the words that it is made of, with white space in front of each. Statements end in
semicolons and the fields of tables are separated by commas.
-/

namespace LuaFrontend

/-- What a token is without its place. -/
abbrev Word := TokenKind × String

namespace Word

def sign (text : String) : Word := (.symbol, text)

def keyword (text : String) : Word := (.keyword, text)

/-- The words as a text: the gap, and the word. -/
def print (gap : Char) (words : List Word) : List Char := words.flatMap fun w => gap :: w.2.toList

end Word

/-- Alone on its line the text is a single token, of this kind. -/
def IsLexeme (dialect : Dialect) (w : Word) : Prop :=
  ∃ start stop, tokenize dialect ("\n" ++ w.2) =
    .ok [⟨w.1, w.2, start⟩, ⟨.endOfInput, "", stop⟩]

def Identifier.word (id : Identifier) : Word := (.identifier, id.name)

def LiteralKind.tokenKind : LiteralKind → TokenKind
  | .nil => .nil
  | .boolean _ => .boolean
  | .number => .number
  | .string => .string
  | .vararg => .vararg

def Literal.word (value : Literal) : Word := (value.kind.tokenKind, value.raw)

def UnaryOperator.word (operator : UnaryOperator) : Word :=
  (if operator = .not then .logicalOperator else .symbol, operator.text)

def BinaryOperator.word (operator : BinaryOperator) : Word :=
  (if operator = .and ∨ operator = .or then .logicalOperator else .symbol, operator.text)

/-- Items with commas between them. -/
def commas : List (List Word) → List Word
  | [] => []
  | first :: others => first ++ others.flatMap (Word.sign "," :: ·)

theorem commas_map_cons {α : Type} (f : α → List Word) (a : α) (items : List α) :
    commas ((a :: items).map f) = f a ++ items.flatMap fun b => Word.sign "," :: f b := by
  rw [List.map_cons, commas, List.flatMap_map]

/-- Parameters, and the dots behind them. -/
def parameterWords (parameters : List Identifier) (isVararg : Bool) : List Word :=
  commas (parameters.map (fun id => [id.word]) ++ if isVararg then [[(.vararg, "...")]] else [])

theorem parameterWords_cons (id : Identifier) {parameters : List Identifier} {isVararg : Bool}
    (h : parameters ≠ [] ∨ isVararg) :
    parameterWords (id :: parameters) isVararg =
      id.word :: Word.sign "," :: parameterWords parameters isVararg := by
  cases parameters with
  | nil =>
    obtain none | rfl := h
    · exact absurd rfl none
    · rfl
  | cons _ _ => simp [parameterWords, commas]

/-- The name of a method, with its colon. -/
def methodWords : Option Identifier → List Word
  | some method => [Word.sign ":", method.word]
  | none => []

def FunctionName.words (name : FunctionName) : List Word :=
  name.root.word :: (name.fields.flatMap fun id => [Word.sign ".", id.word]) ++
    methodWords name.method

variable (dialect : Dialect)

/-- The word `goto`, of the kind that it has in the dialect. -/
def gotoSpelling : Word := (wordKind dialect.contextualGoto "goto", "goto")

mutual

def Expression.words : Expression → List Word
  | .literal value => [value.word]
  | .name id => [id.word]
  | .group inner => Word.sign "(" :: inner.words ++ [Word.sign ")"]
  | .unary operator operand => operator.word :: operand.words
  | .binary operator left right => left.words ++ operator.word :: right.words
  | .index base key => base.words ++ Word.sign "[" :: key.words ++ [Word.sign "]"]
  | .member base field => base.words ++ [Word.sign ".", field.word]
  | .call callee arguments => callee.words ++ arguments.words
  | .methodCall object method arguments =>
    object.words ++ Word.sign ":" :: method.word :: arguments.words
  | .table fields => Word.sign "\x7b" :: commas (TableField.wordsEach fields) ++ [Word.sign "\x7d"]
  | .function value => Word.keyword "function" :: value.words

def Expression.wordsEach : List Expression → List (List Word)
  | [] => []
  | e :: others => e.words :: Expression.wordsEach others

def Arguments.words : Arguments → List Word
  | .list values => Word.sign "(" :: commas (Expression.wordsEach values) ++ [Word.sign ")"]
  | .table fields => Word.sign "\x7b" :: commas (TableField.wordsEach fields) ++ [Word.sign "\x7d"]
  | .string value => [value.word]

def TableField.words : TableField → List Word
  | .value value => value.words
  | .keyed key value =>
    Word.sign "[" :: key.words ++ Word.sign "]" :: Word.sign "=" :: value.words
  | .named name value => name.word :: Word.sign "=" :: value.words

def TableField.wordsEach : List TableField → List (List Word)
  | [] => []
  | f :: others => f.words :: TableField.wordsEach others

def FunctionBody.words : FunctionBody → List Word
  | .mk parameters isVararg block =>
    Word.sign "(" :: parameterWords parameters isVararg ++
      Word.sign ")" :: Statement.wordsAll block ++ [Word.keyword "end"]

/-- A condition and its block, from behind `if` or `elseif`. -/
def Clause.words : Clause → List Word
  | .mk condition block =>
    condition.words ++ Word.keyword "then" :: Statement.wordsAll block

/-- Clauses behind the first, each with its `elseif`. -/
def Clause.wordsAll : List Clause → List Word
  | [] => []
  | c :: others => Word.keyword "elseif" :: c.words ++ Clause.wordsAll others

def Statement.words : Statement → List Word
  | .localVariables names values =>
    Word.keyword "local" :: commas (names.map fun id => [id.word]) ++
      if values.isEmpty then [] else Word.sign "=" :: commas (Expression.wordsEach values)
  | .assignment targets values =>
    commas (Expression.wordsEach targets) ++
      Word.sign "=" :: commas (Expression.wordsEach values)
  | .call expression => expression.words
  | .conditional clauses otherwise =>
    Word.keyword "if" :: (Clause.wordsAll clauses).tail ++ Statement.wordsElse otherwise ++
      [Word.keyword "end"]
  | .whileLoop condition block =>
    Word.keyword "while" :: condition.words ++
      Word.keyword "do" :: Statement.wordsAll block ++ [Word.keyword "end"]
  | .repeatLoop block condition =>
    Word.keyword "repeat" :: Statement.wordsAll block ++ Word.keyword "until" :: condition.words
  | .numericFor counter first last step block =>
    Word.keyword "for" :: counter.word :: Word.sign "=" :: first.words ++
      Word.sign "," :: last.words ++ Expression.wordsStep step ++
        Word.keyword "do" :: Statement.wordsAll block ++ [Word.keyword "end"]
  | .genericFor names iterators block =>
    Word.keyword "for" :: commas (names.map fun id => [id.word]) ++
      Word.keyword "in" :: commas (Expression.wordsEach iterators) ++
        Word.keyword "do" :: Statement.wordsAll block ++ [Word.keyword "end"]
  | .doBlock block => Word.keyword "do" :: Statement.wordsAll block ++ [Word.keyword "end"]
  | .returning values => Word.keyword "return" :: commas (Expression.wordsEach values)
  | .breakLoop => [Word.keyword "break"]
  | .goto label => [gotoSpelling dialect, label.word]
  | .label name => [Word.sign "::", name.word, Word.sign "::"]
  | .localFunction name value =>
    Word.keyword "local" :: Word.keyword "function" :: name.word :: value.words
  | .function name value => Word.keyword "function" :: name.words ++ value.words

def Statement.wordsElse : Option (List Statement) → List Word
  | none => []
  | some block => Word.keyword "else" :: Statement.wordsAll block

def Expression.wordsStep : Option Expression → List Word
  | none => []
  | some step => Word.sign "," :: step.words

/-- Every statement ends in a semicolon. -/
def Statement.wordsAll : List Statement → List Word
  | [] => []
  | s :: others => s.words ++ Word.sign ";" :: Statement.wordsAll others

end

@[simp] theorem Expression.wordsEach_eq (values : List Expression) :
    Expression.wordsEach dialect values = values.map (·.words dialect) := by
  induction values with
  | nil => rfl
  | cons e others ih => rw [Expression.wordsEach, ih, List.map_cons]

@[simp] theorem TableField.wordsEach_eq (fields : List TableField) :
    TableField.wordsEach dialect fields = fields.map (·.words dialect) := by
  induction fields with
  | nil => rfl
  | cons f others ih => rw [TableField.wordsEach, ih, List.map_cons]

@[simp] theorem Clause.wordsAll_eq (clauses : List Clause) :
    Clause.wordsAll dialect clauses =
      clauses.flatMap fun c => Word.keyword "elseif" :: c.words dialect := by
  induction clauses with
  | nil => rfl
  | cons c others ih => rw [Clause.wordsAll, ih, List.flatMap_cons]

/-- The text of a block, with this gap in front of every word. -/
def Block.print (gap : Char) (block : Block) : String :=
  String.ofList (Word.print gap (Statement.wordsAll dialect block))

end LuaFrontend
