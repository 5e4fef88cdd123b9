import LuaFrontend.Proofs.ExactNesting
import LuaFrontend.Proofs.RoundTrip
import LuaFrontend.Proofs.TreeShape

set_option autoImplicit false

/-
How high trees are. Where the grammar reads in a loop it builds each new node on what it has got
already, so that a long sum or a long chain of fields makes a high tree without any nesting. Such a
node has that as its base. Apart from the way along bases, the limit for nesting bounds the height.
-/

namespace LuaFrontend

/-- The nodes from one node down, if so many lie below on the way over its base and on the longest
way over its other parts. Whether the node counts on the way over its base is left open. -/
def heightOver (bases : Bool) (base others : Nat) : Nat :=
  if bases then max base others + 1 else max base (others + 1)

/-- The height of the expression that a function is named by. Every field is put behind the path up
to it. -/
def FunctionName.height (bases : Bool) (name : FunctionName) : Nat :=
  (name.fields ++ name.method.toList).foldl (fun path _ => heightOver bases path 1) 2

mutual

/-- The nodes on the longest way down. Names and literals are leaves of the expressions that they
are. The base of a node is its left operand, or what it is written behind. -/
def Expression.height (bases : Bool) : Expression → Nat
  | .literal _ | .name _ => 2
  | .group inner => inner.height bases + 1
  | .unary _ operand => operand.height bases + 1
  | .binary _ left right => heightOver bases (left.height bases) (right.height bases)
  | .index base key => heightOver bases (base.height bases) (key.height bases)
  | .member base _ => heightOver bases (base.height bases) 1
  | .call callee arguments => heightOver bases (callee.height bases) (arguments.height bases)
  | .methodCall object _ arguments =>
    heightOver bases (heightOver bases (object.height bases) 1) (arguments.height bases)
  | .table fields => (TableField.heightEach bases fields + 1) + 1
  | .function value => value.height bases 0 + 1

def Expression.heightEach (bases : Bool) : List Expression → Nat
  | [] => 0
  | e :: others => max (e.height bases) (Expression.heightEach bases others)

def Arguments.height (bases : Bool) : Arguments → Nat
  | .list values => Expression.heightEach bases values
  | .table fields => TableField.heightEach bases fields + 1
  | .string _ => 1

def TableField.height (bases : Bool) : TableField → Nat
  | .value value => value.height bases + 1
  | .keyed key value => max (key.height bases) (value.height bases) + 1
  | .named _ value => max 1 (value.height bases) + 1

def TableField.heightEach (bases : Bool) : List TableField → Nat
  | [] => 0
  | f :: others => max (f.height bases) (TableField.heightEach bases others)

/-- A function over its name and its block. Its parameters are leaves, as high as an empty block. -/
def FunctionBody.height (bases : Bool) (name : Nat) : FunctionBody → Nat
  | .mk _ _ block => max name (Statement.heightEach bases block + 1) + 1

/-- The higher one of a condition and its block. -/
def Clause.height (bases : Bool) : Clause → Nat
  | .mk condition block => max (condition.height bases) (Statement.heightEach bases block + 1)

def Clause.heightEach (bases : Bool) : List Clause → Nat
  | [] => 0
  | c :: others => max (c.height bases) (Clause.heightEach bases others)

def Statement.height (bases : Bool) : Statement → Nat
  | .localVariables _ values => max 1 (Expression.heightEach bases values) + 1
  | .assignment targets values =>
    max (Expression.heightEach bases targets) (Expression.heightEach bases values) + 1
  | .call expression => expression.height bases + 1
  | .conditional clauses otherwise =>
    max (Clause.heightEach bases clauses) (Statement.heightElse bases otherwise) + 1
  | .whileLoop condition block =>
    max (condition.height bases) (Statement.heightEach bases block + 1) + 1
  | .repeatLoop block condition =>
    max (Statement.heightEach bases block + 1) (condition.height bases) + 1
  | .numericFor _ first last step block =>
    max (first.height bases) (max (last.height bases) (max (Expression.heightStep bases step)
      (Statement.heightEach bases block + 1))) + 1
  | .genericFor _ iterators block =>
    max (Expression.heightEach bases iterators) (Statement.heightEach bases block + 1) + 1
  | .doBlock block => (Statement.heightEach bases block + 1) + 1
  | .returning values => Expression.heightEach bases values + 1
  | .breakLoop => 1
  | .goto _ | .label _ => 2
  | .localFunction _ value => value.height bases 2 + 1
  | .function name value => value.height bases (name.height bases) + 1

def Statement.heightElse (bases : Bool) : Option (List Statement) → Nat
  | none => 0
  | some block => Statement.heightEach bases block + 1

def Expression.heightStep (bases : Bool) : Option Expression → Nat
  | none => 0
  | some step => step.height bases

def Statement.heightEach (bases : Bool) : List Statement → Nat
  | [] => 0
  | s :: others => max (s.height bases) (Statement.heightEach bases others)

end

/-- The nodes on the longest way from a program down to a leaf. -/
def Chunk.height (bases : Bool) (chunk : Chunk) : Nat :=
  (Statement.heightEach bases chunk.block + 1) + 1

namespace Count

/-- Three nodes for each level, and so many more, make at least this height. -/
def Covers (count : Count) (more height : Nat) : Prop :=
  ∀ marks, height ≤ 3 * (count marks).1 + more

variable {count first second : Count} {more other height others : Nat}

theorem covers_of_le (h : height ≤ more) : count.Covers more height :=
  fun _ => h.trans (Nat.le_add_left _ _)

theorem Covers.mono (h : count.Covers more height) (le : more.ble other) :
    count.Covers other height :=
  fun marks => (h marks).trans (Nat.add_le_add_left (Nat.le_of_ble_eq_true le) _)

theorem Covers.succ (h : count.Covers more height) : count.Covers (more + 1) (height + 1) :=
  fun marks => Nat.succ_le_succ (h marks)

theorem Covers.max (h : count.Covers more height) (g : count.Covers more others) :
    count.Covers more (max height others) :=
  fun marks => Nat.max_le.mpr ⟨h marks, g marks⟩

theorem Covers.left (h : first.Covers more height) : (first.beside second).Covers more height :=
  fun marks => (h marks).trans
    (Nat.add_le_add_right (Nat.mul_le_mul_left 3 (Nat.le_max_left _ _)) _)

theorem Covers.right (h : second.Covers more height) : (first.beside second).Covers more height :=
  fun marks => (h (first marks).2).trans
    (Nat.add_le_add_right (Nat.mul_le_mul_left 3 (Nat.le_max_right _ _)) _)

theorem Covers.beside (h : first.Covers more height) (g : second.Covers more others) :
    (first.beside second).Covers more (Max.max height others) :=
  h.left.max g.right

/-- A level has room for three nodes. -/
theorem Covers.nested (h : count.Covers more height) (le : more.ble (other + 3)) :
    count.nested.Covers other height := by
  intro marks
  have covered := h marks
  have room := Nat.le_of_ble_eq_true le
  change height ≤ 3 * ((count marks).1 + 1) + other
  omega

/-- What is written behind something takes a level where it does not go on. -/
theorem Covers.suffixed {p : Prop} (h : count.Covers 2 height) :
    count.nested.Covers 2 height ∧ (p → count.Covers 2 height) :=
  ⟨h.nested rfl, fun _ => h⟩

theorem Covers.table (h : count.Covers 0 height) (isEmpty : Bool) :
    (Count.table count isEmpty).Covers 0 (height + 1) :=
  Covers.nested (Covers.left h).succ rfl

end Count

theorem FunctionName.height_apart (name : FunctionName) : name.height false = 2 := by
  rw [height]
  induction name.fields ++ name.method.toList with
  | nil => rfl
  | cons id path ih => exact ih

section Trees

variable {dialect : Dialect}

mutual

/-- Apart from bases, an expression is as high as its levels allow. In front of a suffix it needs no
level for itself. -/
theorem Expression.covers_nesting : ∀ e : Expression, e.IsProper dialect →
    e.nesting.Covers 2 (e.height false) ∧
      (e.isSuffixable → e.nestingChain.Covers 2 (e.height false))
  | .literal _, _ => ⟨Count.covers_of_le le_rfl, fun other => absurd other Bool.false_ne_true⟩
  | .name _, _ => ⟨Count.covers_of_le le_rfl, fun _ => Count.covers_of_le le_rfl⟩
  | .group inner, h => by
    have level : inner.nesting.nested.Covers 2 (inner.height false + 1) :=
      (Expression.covers_nesting inner h).1.succ.nested rfl
    exact ⟨level.nested rfl, fun _ => level⟩
  | .unary _ operand, ⟨_, _, h⟩ =>
    ⟨(Expression.covers_nesting operand h).1.succ.nested rfl,
      fun other => absurd other Bool.false_ne_true⟩
  | .binary _ left right, ⟨_, _, _, ofLeft, ofRight⟩ => by
    refine ⟨?_, fun other => absurd other Bool.false_ne_true⟩
    exact (Expression.covers_nesting left ofLeft).1.beside
      ((Expression.covers_nesting right ofRight).1.succ.nested rfl)
  | .index base key, ⟨isBase, ofBase, ofKey⟩ =>
    Count.Covers.suffixed <| ((Expression.covers_nesting base ofBase).2 isBase).beside
      ((Expression.covers_nesting key ofKey).1.succ.nested rfl)
  | .member base _, ⟨isBase, ofBase, _⟩ =>
    Count.Covers.suffixed <| ((Expression.covers_nesting base ofBase).2 isBase).max
      (Count.covers_of_le le_rfl)
  | .call callee arguments, ⟨isBase, ofCallee, ofArguments⟩ =>
    Count.Covers.suffixed <| ((Expression.covers_nesting callee ofCallee).2 isBase).beside
      (Arguments.covers_nesting arguments ofArguments).succ
  | .methodCall object _ arguments, ⟨isBase, ofObject, _, ofArguments⟩ => by
    have path := ((Expression.covers_nesting object ofObject).2 isBase).max
      (Count.covers_of_le le_rfl)
    exact Count.Covers.suffixed (path.beside (Arguments.covers_nesting arguments ofArguments).succ)
  | .table fields, h =>
    ⟨((TableField.covers_nestingEach fields h).table _).succ.mono rfl,
      fun other => absurd other Bool.false_ne_true⟩
  | .function value, h =>
    ⟨(FunctionBody.covers_nesting value h (Nat.zero_le 2)).succ,
      fun other => absurd other Bool.false_ne_true⟩

theorem Expression.covers_nestingEach : ∀ values : List Expression,
    Expression.IsProperAll dialect values →
      (Expression.nestingEach values).Covers 0 (Expression.heightEach false values)
  | [], _ => Count.covers_of_le le_rfl
  | e :: others, ⟨first, rest⟩ => ((Expression.covers_nesting e first).1.nested rfl).beside
      (Expression.covers_nestingEach others rest)

theorem Arguments.covers_nesting : ∀ arguments : Arguments, arguments.IsProper dialect →
    arguments.nesting.Covers 1 (arguments.height false)
  | .list values, h => (Expression.covers_nestingEach values h).nested rfl
  | .table fields, h => ((TableField.covers_nestingEach fields h).table _).mono rfl
  | .string _, _ => Count.covers_of_le le_rfl

theorem TableField.covers_nesting : ∀ f : TableField, f.IsProper dialect →
    f.nesting.Covers 0 (f.height false)
  | .value value, h => (Expression.covers_nesting value h).1.succ.nested rfl
  | .keyed key value, ⟨ofKey, ofValue⟩ => by
    rw [TableField.height, ← Nat.add_max_add_right, TableField.nesting]
    exact ((Expression.covers_nesting key ofKey).1.succ.nested rfl).beside
      ((Expression.covers_nesting value ofValue).1.succ.nested rfl)
  | .named _ value, ⟨_, h⟩ => by
    rw [TableField.height, TableField.nesting]
    have leaf : value.nesting.Covers 2 1 := Count.covers_of_le (Nat.le_succ 1)
    exact (leaf.max (Expression.covers_nesting value h).1).succ.nested rfl

theorem TableField.covers_nestingEach : ∀ fields : List TableField,
    TableField.IsProperAll dialect fields →
      (TableField.nestingEach fields).Covers 0 (TableField.heightEach false fields)
  | [], _ => Count.covers_of_le le_rfl
  | f :: others, ⟨first, rest⟩ =>
    (TableField.covers_nesting f first).beside (TableField.covers_nestingEach others rest)

/-- The block of a function leaves room for the function itself and for a name of two nodes. -/
theorem FunctionBody.covers_nesting : ∀ (value : FunctionBody) {name : Nat},
    value.IsProper dialect → name ≤ 2 → value.nesting.Covers 1 (value.height false name)
  | .mk _ _ block, _, ⟨_, ofBlock⟩, le => by
    rw [FunctionBody.height, FunctionBody.nesting]
    have body := (Statement.covers_nestingEach block ofBlock).succ
    exact ((Count.covers_of_le (le.trans (by decide))).max body).succ.nested rfl

theorem Clause.covers_nesting : ∀ c : Clause, c.IsProper dialect →
    c.nesting.Covers 0 (c.height false)
  | .mk condition block, ⟨ofCondition, ofBlock⟩ =>
    ((Expression.covers_nesting condition ofCondition).1.nested rfl).beside
      ((Statement.covers_nestingEach block ofBlock).succ.nested rfl)

theorem Clause.covers_nestingEach : ∀ clauses : List Clause,
    Clause.IsProperAll dialect clauses →
      (Clause.nestingEach clauses).Covers 0 (Clause.heightEach false clauses)
  | [], _ => Count.covers_of_le le_rfl
  | c :: others, ⟨first, rest⟩ =>
    (Clause.covers_nesting c first).beside (Clause.covers_nestingEach others rest)

theorem Statement.covers_nesting : ∀ s : Statement, s.IsProper dialect →
    s.nesting.Covers 2 (s.height false)
  | .localVariables _ values, ⟨_, _, h⟩ => by
    rw [Statement.height, Statement.nesting]
    have parts : (Expression.nestingEach values).Covers 1 (Expression.heightEach false values) :=
      (Expression.covers_nestingEach values h).mono rfl
    exact ((Count.covers_of_le le_rfl).max parts).succ
  | .assignment targets values, ⟨_, _, assignable, ofTargets, ofValues⟩ => by
    rw [Statement.height, Statement.nesting]
    exact ((Expression.covers_nestingTargets targets ofTargets assignable).beside
      (Expression.covers_nestingEach values ofValues)).succ.mono rfl
  | .call e, ⟨isCall, h⟩ => by
    have chain := (Expression.covers_nesting e h).2 (Expression.isSuffixable_of_isCall isCall)
    exact (chain.succ.nested rfl)
  | .conditional clauses otherwise, ⟨_, ofClauses, ofElse⟩ => by
    rw [Statement.height, Statement.nesting]
    exact ((Clause.covers_nestingEach clauses ofClauses).beside
      (Statement.covers_nestingElse otherwise ofElse)).succ.mono rfl
  | .whileLoop condition block, ⟨ofCondition, ofBlock⟩ => by
    rw [Statement.height, Statement.nesting]
    exact (((Expression.covers_nesting condition ofCondition).1.nested rfl).beside
      ((Statement.covers_nestingEach block ofBlock).succ.nested rfl)).succ
  | .repeatLoop block condition, ⟨ofBlock, ofCondition⟩ => by
    rw [Statement.height, Statement.nesting]
    exact (((Statement.covers_nestingEach block ofBlock).succ.nested rfl).beside
      ((Expression.covers_nesting condition ofCondition).1.nested rfl)).succ
  | .numericFor _ first last step block, ⟨_, ofFirst, ofLast, ofStep, ofBlock⟩ => by
    rw [Statement.height, Statement.nesting]
    have behind := (Expression.covers_nestingStep step ofStep).beside
      ((Statement.covers_nestingEach block ofBlock).succ.nested rfl)
    have further := ((Expression.covers_nesting last ofLast).1.nested rfl).beside behind
    exact (((Expression.covers_nesting first ofFirst).1.nested rfl).beside
      further).succ.mono rfl
  | .genericFor _ iterators block, ⟨_, _, _, ofIterators, ofBlock⟩ => by
    rw [Statement.height, Statement.nesting]
    exact ((Expression.covers_nestingEach iterators ofIterators).beside
      ((Statement.covers_nestingEach block ofBlock).succ.nested rfl)).succ.mono rfl
  | .doBlock block, h => (Statement.covers_nestingEach block h).succ.succ.nested rfl
  | .returning values, h => (Expression.covers_nestingEach values h).succ.mono rfl
  | .breakLoop, _ => Count.covers_of_le (Nat.le_succ 1)
  | .goto _, _ => Count.covers_of_le le_rfl
  | .label _, _ => Count.covers_of_le le_rfl
  | .localFunction _ value, ⟨_, h⟩ => (FunctionBody.covers_nesting value h le_rfl).succ
  | .function name value, ⟨_, h⟩ =>
    (FunctionBody.covers_nesting value h (Nat.le_of_eq name.height_apart)).succ

theorem Expression.covers_nestingTargets : ∀ targets : List Expression,
    Expression.IsProperAll dialect targets → (∀ target ∈ targets, target.isAssignable) →
      (Expression.nestingTargets targets).Covers 0 (Expression.heightEach false targets)
  | [], _, _ => Count.covers_of_le le_rfl
  | e :: others, ⟨first, rest⟩, assignable => by
    have suffixable := Expression.isSuffixable_of_isAssignable (assignable e List.mem_cons_self)
    exact (((Expression.covers_nesting e first).2 suffixable).nested rfl).beside
      (Expression.covers_nestingTargets others rest fun t member =>
        assignable t (List.mem_cons_of_mem e member))

theorem Statement.covers_nestingElse : ∀ otherwise : Option (List Statement),
    Statement.IsProperElse dialect otherwise →
      (Statement.nestingElse otherwise).Covers 0 (Statement.heightElse false otherwise)
  | none, _ => Count.covers_of_le le_rfl
  | some block, h => (Statement.covers_nestingEach block h).succ.nested rfl

theorem Expression.covers_nestingStep : ∀ step : Option Expression,
    Expression.IsProperStep dialect step →
      (Expression.nestingStep step).Covers 0 (Expression.heightStep false step)
  | none, _ => Count.covers_of_le le_rfl
  | some step, h => (Expression.covers_nesting step h).1.nested rfl

theorem Statement.covers_nestingEach : ∀ block : List Statement,
    Statement.IsProperAll dialect block →
      (Statement.nestingEach block).Covers 2 (Statement.heightEach false block)
  | [], _ => Count.covers_of_le (Nat.zero_le 2)
  | s :: others, ⟨first, _, rest⟩ =>
    (Statement.covers_nesting s first).beside (Statement.covers_nestingEach others rest)

end

end Trees

/-- The nesting of a program is no deeper than the limit that it was read under. -/
theorem nesting_le_of_parse {options : Options} {source : String} {chunk : Chunk}
    (h : parse options source = .ok chunk) :
    ∃ marks, (chunk.nesting marks).1 ≤ options.maxDepth := by
  obtain ⟨c, d, opened, run⟩ := parse_ok.mp h
  obtain ⟨tokens, final, n, -, counted, needs⟩ :=
    Grammar.chunk_needs (Cursor.isLegible_ofSource opened) run
  refine ⟨tableMarks none tokens, ?_⟩
  rw [counted]
  by_contra deeper
  obtain ⟨x, e, failed, -⟩ := (needs options.maxDepth).2 (Nat.lt_of_not_le deeper)
  cases run.symm.trans failed

/-- On the way down to any leaf there are at most three nodes for each level that is allowed, and
the program, if the nodes that are left over their base do not count. -/
theorem height_apart_from_bases_is_bounded {options : Options} {source : String} {chunk : Chunk}
    (h : parse options source = .ok chunk) : chunk.height false ≤ 3 * options.maxDepth + 1 := by
  obtain ⟨marks, allowed⟩ := nesting_le_of_parse h
  have block := Statement.covers_nestingEach chunk.block (parse_isProper h)
  have covered : chunk.nesting.Covers 1 (chunk.height false) := block.succ.succ.nested rfl
  exact (covered marks).trans (Nat.add_le_add_right (Nat.mul_le_mul_left 3 allowed) 1)

/-- In a sum of three, one node more is met on the way over the first two. -/
theorem height_of_sum_apart_from_bases : ∃ chunk,
    parse { Options.forParser with maxDepth := 3 } "return 1+2+3" = .ok chunk ∧
      (chunk.height false, chunk.height true) = (6, 7) ∧ chunk.height false ≤ 3 * 3 + 1 := by
  have heights : (parse { Options.forParser with maxDepth := 3 } "return 1+2+3").toOption.map
      (fun chunk => (chunk.height false, chunk.height true)) = some (6, 7) := by decide +kernel
  obtain ⟨chunk, parsed, heights⟩ := exists_of_parse_map heights
  exact ⟨chunk, parsed, heights, height_apart_from_bases_is_bounded parsed⟩

/-- With the nodes over bases there are more, as many as operators are written: here a limit of
three levels admits a tree that is thirty-three nodes high. -/
theorem high_sum_is_read : ∃ chunk,
    parse { Options.forParser with maxDepth := 3 }
      "return 1+1+1+1+1+1+1+1+1+1+1+1+1+1+1+1+1+1+1+1+1+1+1+1+1+1+1+1+1" = .ok chunk ∧
      ¬ chunk.height true ≤ 8 * 3 + 8 := by
  have height : (parse { Options.forParser with maxDepth := 3 }
      "return 1+1+1+1+1+1+1+1+1+1+1+1+1+1+1+1+1+1+1+1+1+1+1+1+1+1+1+1+1").toOption.map
      (·.height true) = some 33 := by decide +kernel
  obtain ⟨chunk, parsed, high⟩ := exists_of_parse_map height
  exact ⟨chunk, parsed, by rw [high]; decide⟩

/-- So many ones added to one, each to the sum in front of it. -/
def Expression.ones : Nat → Expression
  | 0 => .literal ⟨.number, "1", {}⟩
  | more + 1 => .binary .add (ones more) (.literal ⟨.number, "1", {}⟩)

section Sums

variable {more : Nat}

theorem Expression.isProper_ones :
    (ones more).IsProper Options.forParser.toDialect ∧
      BinaryOperator.add.takesLeft (ones more) := by
  have plus : IsLexeme Options.forParser.toDialect (.symbol, "+") := ⟨⟨1, 2, 1⟩, ⟨2, 2, 1⟩, rfl⟩
  have one : IsLexeme Options.forParser.toDialect (.number, "1") := ⟨⟨1, 2, 1⟩, ⟨2, 2, 1⟩, rfl⟩
  induction more with
  | zero => exact ⟨one, rfl⟩
  | succ more ih => exact ⟨⟨plus, ih.2, rfl, ih.1, one⟩, rfl⟩

theorem Expression.inside_ones : (ones more).inside ≤ 1 := by
  induction more with
  | zero => exact Nat.zero_le 1
  | succ more ih => exact max_le ih le_rfl

theorem Expression.height_of_alike_ones {e : Expression}
    (h : e.mapSpans (fun _ => {}) = (ones more).mapSpans fun _ => {}) :
    e.height true = more + 2 := by
  induction more generalizing e with
  | zero => cases e <;> first | rfl | cases h
  | succ more ih =>
    cases e with
    | binary operator left right =>
      obtain ⟨-, sum, last⟩ := Expression.binary.inj h
      have one : right.height true = 2 := by cases right <;> first | rfl | cases last
      rw [height, ih sum, one, heightOver, if_pos rfl]
      omega
    | _ => cases h

theorem heightEach_of_alike_ones {block : Block}
    (h : block.eraseSpans = Block.eraseSpans [.returning [Expression.ones more]]) :
    more + 3 ≤ Statement.heightEach true block := by
  simp only [Block.eraseSpans, Statement.mapSpansAll, Statement.mapSpans,
    Expression.mapSpansAll] at h
  cases block with
  | nil => cases h
  | cons s others =>
    have first := (List.cons.inj h).1
    cases s with
    | returning values =>
      have returned := Statement.returning.inj first
      cases values with
      | nil => cases returned
      | cons e behind =>
        have high := Expression.height_of_alike_ones (List.cons.inj returned).1
        simp only [Statement.heightEach, Statement.height, Expression.heightEach, high]
        omega
    | _ => cases first

end Sums

/-- With the nodes over bases, three levels admit programs of any height. -/
theorem heights_are_unbounded (bound : Nat) : ∃ source chunk,
    parse { Options.forParser with maxDepth := 3 } source = .ok chunk ∧
      bound < chunk.height true := by
  have proper : Statement.IsProperAll Options.forParser.toDialect
      [.returning [Expression.ones bound]] :=
    ⟨⟨Expression.isProper_ones.1, trivial⟩, fun _ => rfl, trivial⟩
  have room : Block.levels [.returning [Expression.ones bound]] ≤ 3 := by
    have sum := @Expression.inside_ones bound
    simp only [Block.levels, Statement.levelsAll, Statement.levels, Expression.levelsAll]
    omega
  have text : Block.IsText Options.forParser.toDialect _ _ :=
    isText_print (show isSpace ' ' from rfl) proper
  obtain ⟨chunk, parsed, same⟩ :=
    @parse_of_isText { Options.forParser with maxDepth := 3 } _ _ proper room text
  have high := heightEach_of_alike_ones same
  refine ⟨_, chunk, parsed, ?_⟩
  rw [Chunk.height]
  omega

end LuaFrontend
