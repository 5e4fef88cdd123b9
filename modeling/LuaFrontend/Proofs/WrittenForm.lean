import LuaFrontend.Grammar.Expression
import Mathlib.Computability.Language

set_option autoImplicit false

/-
The sequences of tokens that a tree can be written as, tree by tree. A sequence is free in two
things only: semicolons between statements and behind a `return`, and the signs that separate the
fields of a table.
-/

namespace LuaFrontend

open Computability

/-- A token that the language itself spells so. -/
def word (text : String) : Language Token :=
  {tokens | ∃ t, tokens = [t] ∧ (Pattern.text text).accepts t}

/-- Items with something between them. -/
def separatedBy (separator : Language Token) : List (Language Token) → Language Token
  | [] => 1
  | item :: others => item * (others.map (separator * ·)).prod

/-- Empty statements. -/
def semicolons : Language Token := (word ";")∗

/-- The name stands for its own token. -/
def Identifier.written (id : Identifier) : Language Token :=
  {tokens | ∃ t : Token, tokens = [t] ∧ t.kind = .identifier ∧ id = .ofToken t}

/-- The literal stands for its own token. -/
def Literal.written (value : Literal) : Language Token :=
  {tokens | ∃ t, tokens = [t] ∧ Literal.ofToken? t = some value}

/-- The word `goto`, which a dialect may read as a name. -/
def gotoWord : Language Token :=
  {tokens | ∃ t, tokens = [t] ∧ t.text = "goto" ∧ (t.kind = .keyword ∨ t.kind = .identifier)}

/-- Names in parentheses, with `...` behind them if there is one. -/
def writtenParameters (names : List Identifier) (isVararg : Bool) : Language Token :=
  word "(" * separatedBy (word ",")
    (names.map (·.written) ++ if isVararg then [word "..."] else []) * word ")"

def FunctionName.written (name : FunctionName) : Language Token :=
  name.root.written * (name.fields.map (word "." * ·.written)).prod *
    match name.method with
    | some method => word ":" * method.written
    | none => 1

def Statement.isReturn : Statement → Bool
  | .returning _ => true
  | _ => false

mutual

def Expression.written : Expression → Language Token
  | .literal value => value.written
  | .name id => id.written
  | .group inner => word "(" * inner.written * word ")"
  | .unary operator operand => word operator.text * operand.written
  | .binary operator left right => left.written * word operator.text * right.written
  | .index base key => base.written * (word "[" * key.written * word "]")
  | .member base field => base.written * (word "." * field.written)
  | .call callee arguments => callee.written * arguments.written
  | .methodCall object method arguments =>
    object.written * (word ":" * method.written * arguments.written)
  | .table fields => word "\x7b" * TableField.writtenAll fields * word "\x7d"
  | .function value => word "function" * value.written

def Expression.writtenEach : List Expression → List (Language Token)
  | [] => []
  | e :: others => e.written :: Expression.writtenEach others

def Arguments.written : Arguments → Language Token
  | .list values => word "(" * separatedBy (word ",") (Expression.writtenEach values) * word ")"
  | .table fields => word "\x7b" * TableField.writtenAll fields * word "\x7d"
  | .string value => value.written

def TableField.written : TableField → Language Token
  | .value value => value.written
  | .keyed key value => word "[" * key.written * word "]" * word "=" * value.written
  | .named name value => name.written * word "=" * value.written

/-- Fields have a comma or a semicolon between them, and one may stand behind the last. -/
def TableField.writtenAll : List TableField → Language Token
  | [] => 1
  | f :: others =>
    f.written * (if others.isEmpty then 1 + (word "," + word ";")
      else (word "," + word ";") * TableField.writtenAll others)

def FunctionBody.written : FunctionBody → Language Token
  | .mk parameters isVararg block =>
    writtenParameters parameters isVararg * Statement.writtenAll block * word "end"

/-- A condition and its block, from behind `if` or `elseif`. -/
def Clause.written : Clause → Language Token
  | .mk condition block => condition.written * word "then" * Statement.writtenAll block

def Clause.writtenEach : List Clause → List (Language Token)
  | [] => []
  | c :: others => c.written :: Clause.writtenEach others

def Statement.written : Statement → Language Token
  | .localVariables names values =>
    word "local" * separatedBy (word ",") (names.map (·.written)) *
      (if values.isEmpty then 1
        else word "=" * separatedBy (word ",") (Expression.writtenEach values))
  | .assignment targets values =>
    separatedBy (word ",") (Expression.writtenEach targets) * word "=" *
      separatedBy (word ",") (Expression.writtenEach values)
  | .call expression => expression.written
  | .conditional clauses otherwise =>
    word "if" * separatedBy (word "elseif") (Clause.writtenEach clauses) *
      Statement.writtenElse otherwise * word "end"
  | .whileLoop condition block =>
    word "while" * condition.written * (word "do" * Statement.writtenAll block * word "end")
  | .repeatLoop block condition =>
    word "repeat" * Statement.writtenAll block * word "until" * condition.written
  | .numericFor counter first last step block =>
    word "for" * counter.written * word "=" * first.written * word "," * last.written *
      Expression.writtenStep step * (word "do" * Statement.writtenAll block * word "end")
  | .genericFor names iterators block =>
    word "for" * separatedBy (word ",") (names.map (·.written)) * word "in" *
      separatedBy (word ",") (Expression.writtenEach iterators) *
        (word "do" * Statement.writtenAll block * word "end")
  | .doBlock block => word "do" * Statement.writtenAll block * word "end"
  | .returning values =>
    word "return" * separatedBy (word ",") (Expression.writtenEach values) * (1 + word ";")
  | .breakLoop => word "break"
  | .goto label => gotoWord * label.written
  | .label name => word "::" * name.written * word "::"
  | .localFunction name value => word "local" * word "function" * name.written * value.written
  | .function name value => word "function" * name.written * value.written

def Statement.writtenElse : Option (List Statement) → Language Token
  | none => 1
  | some block => word "else" * Statement.writtenAll block

def Expression.writtenStep : Option Expression → Language Token
  | none => 1
  | some step => word "," * step.written

/-- Empty statements may stand anywhere but behind a `return`, which nothing can follow. -/
def Statement.writtenAll : List Statement → Language Token
  | [] => semicolons
  | s :: others =>
    semicolons * s.written * (if s.isReturn then (if others.isEmpty then 1 else 0)
      else Statement.writtenAll others)

end

section Languages

variable {l m : Language Token}

@[simp] theorem nil_mem_mul : [] ∈ l * m ↔ [] ∈ l ∧ [] ∈ m := by
  simp [Language.mem_mul]

@[simp] theorem nil_mem_word (text : String) : [] ∈ word text ↔ False :=
  iff_false_intro fun ⟨_, empty, _⟩ => List.cons_ne_nil _ _ empty.symm

@[simp] theorem Identifier.nil_mem_written (id : Identifier) : [] ∈ id.written ↔ False :=
  iff_false_intro fun ⟨_, empty, _⟩ => List.cons_ne_nil _ _ empty.symm

@[simp] theorem Literal.nil_mem_written (value : Literal) : [] ∈ value.written ↔ False :=
  iff_false_intro fun ⟨_, empty, _⟩ => List.cons_ne_nil _ _ empty.symm

@[simp] theorem Arguments.nil_mem_written (arguments : Arguments) :
    [] ∈ arguments.written ↔ False := by
  cases arguments <;> simp [Arguments.written]

@[simp] theorem Expression.nil_mem_written (e : Expression) : [] ∈ e.written ↔ False := by
  cases e <;> simp [Expression.written]

@[simp] theorem Statement.nil_mem_written (s : Statement) : [] ∈ s.written ↔ False := by
  cases s with
  | localVariables names values =>
    rw [Statement.written, nil_mem_mul, nil_mem_mul, nil_mem_word, false_and, false_and]
  | _ => simp [Statement.written]

theorem mem_word {text : String} {t : Token} : [t] ∈ word text ↔ (Pattern.text text).accepts t := by
  constructor
  · rintro ⟨u, same, accepted⟩
    cases same
    exact accepted
  · exact fun accepted => ⟨t, rfl, accepted⟩

theorem separatedBy_cons_cons (separator first second : Language Token)
    (others : List (Language Token)) :
    separatedBy separator (first :: second :: others) =
      first * separator * separatedBy separator (second :: others) := by
  simp [separatedBy, mul_assoc]

theorem separatedBy_append_singleton (separator last : Language Token)
    (items : List (Language Token)) :
    separatedBy separator (items ++ [last]) = (items.map (· * separator)).prod * last := by
  induction items with
  | nil => simp [separatedBy]
  | cons item others ih =>
    cases others with
    | nil => simp [separatedBy, mul_assoc]
    | cons next others =>
      rw [List.cons_append, List.cons_append, separatedBy_cons_cons, ← List.cons_append, ih]
      simp [mul_assoc]

end Languages

theorem Expression.writtenEach_eq (values : List Expression) :
    Expression.writtenEach values = values.map Expression.written := by
  induction values with
  | nil => rfl
  | cons e others ih => rw [Expression.writtenEach, ih, List.map_cons]

theorem Clause.writtenEach_eq (clauses : List Clause) :
    Clause.writtenEach clauses = clauses.map Clause.written := by
  induction clauses with
  | nil => rfl
  | cons c others ih => rw [Clause.writtenEach, ih, List.map_cons]

/-- The fields behind the first, each behind its separator. -/
theorem TableField.writtenAll_cons (first : TableField) (others : List TableField) :
    TableField.writtenAll (first :: others) =
      first.written * ((others.map ((word "," + word ";") * ·.written)).prod *
        (1 + (word "," + word ";"))) := by
  induction others generalizing first with
  | nil => simp [TableField.writtenAll]
  | cons next others ih =>
    rw [TableField.writtenAll, ih]
    simp [mul_assoc]

end LuaFrontend
