import LuaFrontend.Token.Basic
import LuaFrontend.Tree.Basic

set_option autoImplicit false

/-
The levels of nesting that a tree takes, exactly. They depend on one thing that the tree does not
show: whether a separator stands behind the last field of a table. So a count goes through marks,
one for each table, in the order in which the tables end in the text.
-/

namespace LuaFrontend

/-- A number of levels, and the marks that are left for what comes behind. -/
def Count := List Bool → Nat × List Bool

namespace Count

/-- What takes no level and has no table in it. -/
def zero : Count := fun marks => (0, marks)

/-- One part behind the other, both at the same level. -/
def beside (first second : Count) : Count := fun marks =>
  (max (first marks).1 (second (first marks).2).1, (second (first marks).2).2)

/-- A part that takes a level for itself. -/
def nested (part : Count) : Count := fun marks => ((part marks).1 + 1, (part marks).2)

/-- Where a table ends. If it is empty, and also behind a separator, a field is looked for in vain,
and that takes two levels. -/
def tableEnd (isEmpty : Bool) : Count := fun marks =>
  (if isEmpty || marks.head?.getD false then 2 else 0, marks.tail)

/-- A table around its fields. -/
def table (fields : Count) (isEmpty : Bool) : Count := (fields.beside (tableEnd isEmpty)).nested

/-- All parts of a list. -/
def each {α : Type} (count : α → Count) : List α → Count
  | [] => zero
  | a :: others => (count a).beside (each count others)

end Count

mutual

/-- The levels below the one of the expression itself. -/
def Expression.nesting : Expression → Count
  | .literal _ => .zero
  | .name _ => Count.zero.nested
  | .group inner => inner.nesting.nested.nested
  | .unary _ operand => operand.nesting.nested
  | .binary _ left right => left.nesting.beside right.nesting.nested
  | .index base key => (base.nestingChain.beside key.nesting.nested).nested
  | .member base _ => base.nestingChain.nested
  | .call callee arguments => (callee.nestingChain.beside arguments.nesting).nested
  | .methodCall object _ arguments => (object.nestingChain.beside arguments.nesting).nested
  | .table fields => Count.table (TableField.nestingEach fields) fields.isEmpty
  | .function value => value.nesting

/-- The levels of what is written in brackets behind a name or a group, and of the group. -/
def Expression.nestingChain : Expression → Count
  | .group inner => inner.nesting.nested
  | .index base key => base.nestingChain.beside key.nesting.nested
  | .member base _ => base.nestingChain
  | .call callee arguments => callee.nestingChain.beside arguments.nesting
  | .methodCall object _ arguments => object.nestingChain.beside arguments.nesting
  | _ => .zero

def Expression.nestingEach : List Expression → Count
  | [] => .zero
  | e :: others => e.nesting.nested.beside (Expression.nestingEach others)

def Arguments.nesting : Arguments → Count
  | .list values => (Expression.nestingEach values).nested
  | .table fields => Count.table (TableField.nestingEach fields) fields.isEmpty
  | .string _ => .zero

def TableField.nesting : TableField → Count
  | .value value => value.nesting.nested
  | .keyed key value => key.nesting.nested.beside value.nesting.nested
  | .named _ value => value.nesting.nested

def TableField.nestingEach : List TableField → Count
  | [] => .zero
  | f :: others => f.nesting.beside (TableField.nestingEach others)

def FunctionBody.nesting : FunctionBody → Count
  | .mk _ _ block => (Statement.nestingEach block).nested

def Clause.nesting : Clause → Count
  | .mk condition block => condition.nesting.nested.beside (Statement.nestingEach block).nested

def Clause.nestingEach : List Clause → Count
  | [] => .zero
  | c :: others => c.nesting.beside (Clause.nestingEach others)

def Statement.nesting : Statement → Count
  | .localVariables _ values => Expression.nestingEach values
  | .assignment targets values =>
    (Expression.nestingTargets targets).beside (Expression.nestingEach values)
  | .call expression => expression.nestingChain.nested
  | .conditional clauses otherwise =>
    (Clause.nestingEach clauses).beside (Statement.nestingElse otherwise)
  | .whileLoop condition block =>
    condition.nesting.nested.beside (Statement.nestingEach block).nested
  | .repeatLoop block condition =>
    (Statement.nestingEach block).nested.beside condition.nesting.nested
  | .numericFor _ first last step block =>
    first.nesting.nested.beside (last.nesting.nested.beside
      ((Expression.nestingStep step).beside (Statement.nestingEach block).nested))
  | .genericFor _ iterators block =>
    (Expression.nestingEach iterators).beside (Statement.nestingEach block).nested
  | .doBlock block => (Statement.nestingEach block).nested
  | .returning values => Expression.nestingEach values
  | .breakLoop | .goto _ | .label _ => .zero
  | .localFunction _ value => value.nesting
  | .function _ value => value.nesting

def Expression.nestingTargets : List Expression → Count
  | [] => .zero
  | e :: others => e.nestingChain.nested.beside (Expression.nestingTargets others)

def Statement.nestingElse : Option (List Statement) → Count
  | none => .zero
  | some block => (Statement.nestingEach block).nested

def Expression.nestingStep : Option Expression → Count
  | none => .zero
  | some step => step.nesting.nested

/-- The levels below the one of the block itself. -/
def Statement.nestingEach : List Statement → Count
  | [] => .zero
  | s :: others => s.nesting.beside (Statement.nestingEach others)

end

/-- The levels of a whole program, whose block takes one itself. -/
def Chunk.nesting (chunk : Chunk) : Count := (Statement.nestingEach chunk.block).nested

/-- A table with one field needs a level more if a separator stands behind the field. -/
example :
    let chunk : Chunk := ⟨[.returning [.table [.value (.literal ⟨.nil, "nil", ⟨8, 11⟩⟩)]]], []⟩
    chunk.nesting [false] = (4, []) ∧ chunk.nesting [true] = (5, []) := by decide

namespace Token

/-- Only tables end with it. -/
def closesTable (t : Token) : Bool := t.kind == .symbol && t.text == "\x7d"

def isSeparator (t : Token) : Bool := t.kind == .symbol && (t.text == "," || t.text == ";")

end Token

/-- For each table that ends in the text, whether a separator stands in front of its end. -/
def tableMarks (before : Option Token) : List Token → List Bool
  | [] => []
  | t :: rest =>
    if t.closesTable then before.any (·.isSeparator) :: tableMarks (some t) rest
    else tableMarks (some t) rest

theorem tableMarks_append (before : Option Token) (first second : List Token) :
    tableMarks before (first ++ second) =
      tableMarks before first ++ tableMarks (first.getLast?.or before) second := by
  induction first generalizing before with
  | nil => rfl
  | cons t first ih =>
    have last : (t :: first).getLast?.or before = first.getLast?.or (some t) := by
      cases first with
      | nil => rfl
      | cons u first => simp [List.getLast?_cons]
    rw [last, List.cons_append]
    simp only [tableMarks, ih]
    split <;> rfl

namespace Count

@[simp] theorem zero_beside (count : Count) : zero.beside count = count := by
  funext marks
  simp [zero, beside]

@[simp] theorem beside_zero (count : Count) : count.beside zero = count := by
  funext marks
  simp [zero, beside]

theorem beside_assoc (first second third : Count) :
    (first.beside second).beside third = first.beside (second.beside third) := by
  funext marks
  simp [beside, Nat.max_assoc]

theorem each_append {α : Type} (count : α → Count) (first second : List α) :
    each count (first ++ second) = (each count first).beside (each count second) := by
  induction first with
  | nil => exact (zero_beside _).symm
  | cons a first ih => rw [List.cons_append, each, ih, each, beside_assoc]

theorem each_zero {α : Type} (list : List α) : each (fun _ => zero) list = zero := by
  induction list with
  | nil => rfl
  | cons a list ih => rw [each, ih, zero_beside]

/-- These are just the marks that the count uses up, and this is the number that it comes to. -/
def Takes (count : Count) (marks : List Bool) (levels : Nat) : Prop :=
  ∀ tail, count (marks ++ tail) = (levels, tail)

variable {first second count : Count} {marks others : List Bool} {n m : Nat}

theorem takes_zero : zero.Takes [] 0 := fun _ => rfl

theorem Takes.beside (h : first.Takes marks n) (g : second.Takes others m) :
    (first.beside second).Takes (marks ++ others) (max n m) := by
  intro tail
  rw [Count.beside, List.append_assoc, h, g]

theorem Takes.nested (h : count.Takes marks n) : count.nested.Takes marks (n + 1) := by
  intro tail
  rw [Count.nested, h]

theorem takes_tableEnd (isEmpty mark : Bool) :
    (tableEnd isEmpty).Takes [mark] (if isEmpty || mark then 2 else 0) := fun _ => rfl

end Count

section Lists

theorem Expression.nestingEach_eq (values : List Expression) :
    Expression.nestingEach values = Count.each (·.nesting.nested) values := by
  induction values with
  | nil => rfl
  | cons e values ih => rw [Expression.nestingEach, ih, Count.each]

theorem Expression.nestingTargets_eq (targets : List Expression) :
    Expression.nestingTargets targets = Count.each (·.nestingChain.nested) targets := by
  induction targets with
  | nil => rfl
  | cons e targets ih => rw [Expression.nestingTargets, ih, Count.each]

theorem TableField.nestingEach_eq (fields : List TableField) :
    TableField.nestingEach fields = Count.each TableField.nesting fields := by
  induction fields with
  | nil => rfl
  | cons f fields ih => rw [TableField.nestingEach, ih, Count.each]

theorem Clause.nestingEach_eq (clauses : List Clause) :
    Clause.nestingEach clauses = Count.each Clause.nesting clauses := by
  induction clauses with
  | nil => rfl
  | cons c clauses ih => rw [Clause.nestingEach, ih, Count.each]

theorem Statement.nestingEach_eq (block : List Statement) :
    Statement.nestingEach block = Count.each Statement.nesting block := by
  induction block with
  | nil => rfl
  | cons s block ih => rw [Statement.nestingEach, ih, Count.each]

end Lists
end LuaFrontend
