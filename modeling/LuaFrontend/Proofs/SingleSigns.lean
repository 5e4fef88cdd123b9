import LuaFrontend.Proofs.LargerDialect
import LuaFrontend.Proofs.WrittenForm

set_option autoImplicit false

namespace LuaFrontend

open Computability

/-- One such sign alone. -/
def Token.isSingle (t : Token) : Bool :=
  t.kind == .symbol && (doubledSigns.map String.singleton).contains t.text

/-- The token could begin with the second half of a doubled sign. -/
def Token.beginsDoubled (t : Token) : Bool :=
  t.kind == .symbol && t.text.toList.head?.any doubledSigns.contains

/-- The two tokens could not be one symbol. -/
def StandApart (t u : Token) : Prop := t.isSingle → u.beginsDoubled = false

/-- Behind every such sign a token follows that cannot double it. -/
def AreSingle : List Token → Prop
  | [] => True
  | t :: rest => (t.isSingle → ∃ u ∈ rest.head?, u.beginsDoubled = false) ∧ AreSingle rest

theorem AreSingle.append {first second : List Token} (h : AreSingle first)
    (g : AreSingle second) : AreSingle (first ++ second) := by
  induction first with
  | nil => exact g
  | cons t rest ih =>
    refine ⟨fun single => ?_, ih h.2⟩
    obtain ⟨u, next, other⟩ := h.1 single
    refine ⟨u, ?_, other⟩
    change u ∈ (rest ++ second).head?
    rw [List.head?_append, Option.mem_def.mp next]
    rfl

/-- Comments between the tokens do not change that, since none of them is a sign. -/
theorem isChain_of_areSingle {tokens : List Token} (h : AreSingle (tokens.filter (!·.isComment))) :
    tokens.IsChain StandApart := by
  induction tokens with
  | nil => exact .nil
  | cons t rest ih =>
    have comment {t : Token} (is : t.isComment) : t.isSingle = false ∧ t.beginsDoubled = false := by
      simp only [Token.isComment, beq_iff_eq] at is
      simp [Token.isSingle, Token.beginsDoubled, is]
    have others : rest.IsChain StandApart := by
      apply ih
      rw [List.filter_cons] at h
      split at h
      · exact h.2
      · exact h
    cases rest with
    | nil => exact .singleton t
    | cons u rest =>
      refine .cons_cons (fun single => ?_) others
      by_cases aside : u.isComment
      · exact (comment aside).2
      · have token : t.isComment = false := by
          rw [Bool.eq_false_iff]
          intro is
          rw [(comment is).1] at single
          contradiction
        rw [List.filter_cons_of_pos (by simp [token]), List.filter_cons_of_pos (by simp [aside])]
          at h
        obtain ⟨v, next, other⟩ := h.1 single
        obtain rfl := Option.some.inj next
        exact other

/-- The signs are single in every sequence of the language. -/
def KeepsSingle (l : Language Token) : Prop := ∀ tokens ∈ l, AreSingle tokens

/-- No sequence of the language is empty or begins with such a sign. -/
def Opens (l : Language Token) : Prop :=
  ∀ tokens ∈ l, ∃ t ∈ tokens.head?, t.beginsDoubled = false

namespace Opens

variable {l m : Language Token}

theorem mul (h : Opens l) : Opens (l * m) := by
  intro tokens member
  obtain ⟨front, inFront, back, -, rfl⟩ := Language.mem_mul.mp member
  obtain ⟨t, first, other⟩ := h front inFront
  refine ⟨t, ?_, other⟩
  rw [List.head?_append, Option.mem_def.mp first]
  rfl

theorem of_word {text : String}
    (h : text.toList.head?.any doubledSigns.contains = false := by decide) :
    Opens (word text) := by
  rintro tokens ⟨t, rfl, accepted⟩
  refine ⟨t, rfl, ?_⟩
  simp only [Pattern.accepts, Bool.and_eq_true, beq_iff_eq] at accepted
  simp only [Token.beginsDoubled, accepted.2, h, Bool.and_false]

theorem identifier (id : Identifier) : Opens id.written := by
  rintro tokens ⟨t, rfl, kind, -⟩
  exact ⟨t, rfl, by simp [Token.beginsDoubled, kind]⟩

theorem literal (value : Literal) : Opens value.written := by
  rintro tokens ⟨t, rfl, same⟩
  refine ⟨t, rfl, ?_⟩
  cases kind : t.kind <;> simp [Literal.ofToken?, kind] at same
  all_goals simp [Token.beginsDoubled, kind]

end Opens

/-- The first token of an expression cannot double a sign in front of it. -/
theorem Expression.opens (e : Expression) : Opens e.written := by
  cases e with
  | literal value => exact .literal value
  | name id => exact .identifier id
  | group inner => exact (Opens.of_word).mul.mul
  | unary operator operand => cases operator <;> exact (Opens.of_word).mul
  | binary operator left right => exact left.opens.mul.mul
  | index base key => exact base.opens.mul
  | member base field => exact base.opens.mul
  | call callee arguments => exact callee.opens.mul
  | methodCall object method arguments => exact object.opens.mul
  | table fields => exact (Opens.of_word).mul.mul
  | function value => exact (Opens.of_word).mul

namespace KeepsSingle

variable {l m : Language Token}

theorem one : KeepsSingle 1 := by
  intro tokens member
  obtain rfl := (Language.mem_one tokens).mp member
  trivial

theorem zero : KeepsSingle 0 := fun _ impossible => impossible.elim

theorem mul (h : KeepsSingle l) (g : KeepsSingle m) : KeepsSingle (l * m) := by
  intro tokens member
  obtain ⟨front, inFront, back, inBack, rfl⟩ := Language.mem_mul.mp member
  exact (h front inFront).append (g back inBack)

theorem add (h : KeepsSingle l) (g : KeepsSingle m) : KeepsSingle (l + m) := by
  rintro tokens (member | member)
  · exact h tokens member
  · exact g tokens member

theorem prod {languages : List (Language Token)} (h : ∀ l ∈ languages, KeepsSingle l) :
    KeepsSingle languages.prod := by
  induction languages with
  | nil => exact one
  | cons l others ih =>
    rw [List.prod_cons]
    exact (h l List.mem_cons_self).mul (ih fun m member => h m (List.mem_cons_of_mem l member))

theorem separatedBy {languages : List (Language Token)} (h : KeepsSingle l)
    (g : ∀ m ∈ languages, KeepsSingle m) : KeepsSingle (separatedBy l languages) := by
  cases languages with
  | nil => exact one
  | cons first others =>
    refine (g first List.mem_cons_self).mul (prod fun m member => ?_)
    obtain ⟨item, inside, rfl⟩ := List.mem_map.mp member
    exact h.mul (g item (List.mem_cons_of_mem first inside))

theorem of_single {t : Token} (h : t.isSingle = false) : AreSingle [t] := by
  refine ⟨fun single => ?_, trivial⟩
  rw [h] at single
  contradiction

theorem of_word {text : String}
    (h : (doubledSigns.map String.singleton).contains text = false := by decide) :
    KeepsSingle (word text) := by
  rintro tokens ⟨t, rfl, accepted⟩
  apply of_single
  simp only [Pattern.accepts, Bool.and_eq_true, beq_iff_eq] at accepted
  rw [Token.isSingle, accepted.2, h, Bool.and_false]

/-- A sign may be followed by what cannot double it. -/
theorem word_mul (text : String) (h : KeepsSingle l) (opens : Opens l) :
    KeepsSingle (word text * l) := by
  intro tokens member
  obtain ⟨front, ⟨t, rfl, -⟩, back, inBack, rfl⟩ := Language.mem_mul.mp member
  exact ⟨fun _ => opens back inBack, h back inBack⟩

theorem semicolons : KeepsSingle semicolons := by
  intro tokens member
  obtain ⟨parts, rfl, each⟩ := Language.mem_kstar.mp member
  clear member
  have one : KeepsSingle (word ";") := of_word
  induction parts with
  | nil => trivial
  | cons part parts ih =>
    rw [List.flatten_cons]
    have first := one part (each part List.mem_cons_self)
    exact first.append (ih fun y inside => each y (List.mem_cons_of_mem part inside))

theorem identifier (id : Identifier) : KeepsSingle id.written := by
  rintro tokens ⟨t, rfl, kind, -⟩
  exact of_single (by simp [Token.isSingle, kind])

theorem literal (value : Literal) : KeepsSingle value.written := by
  rintro tokens ⟨t, rfl, same⟩
  apply of_single
  cases kind : t.kind <;> simp [Literal.ofToken?, kind] at same
  all_goals simp [Token.isSingle, kind]

theorem gotoWord : KeepsSingle gotoWord := by
  rintro tokens ⟨t, rfl, -, kind⟩
  apply of_single
  rcases kind with kind | kind <;> simp [Token.isSingle, kind]

theorem names (ids : List Identifier) :
    KeepsSingle (LuaFrontend.separatedBy (word ",") (ids.map (·.written))) := by
  refine (of_word).separatedBy fun m member => ?_
  obtain ⟨id, -, rfl⟩ := List.mem_map.mp member
  exact identifier id

theorem parameters (ids : List Identifier) (isVararg : Bool) :
    KeepsSingle (writtenParameters ids isVararg) := by
  refine ((of_word).mul ((of_word).separatedBy fun m member => ?_)).mul of_word
  rcases List.mem_append.mp member with inside | last
  · obtain ⟨id, -, rfl⟩ := List.mem_map.mp inside
    exact identifier id
  · cases isVararg with
    | true =>
      obtain rfl := List.mem_singleton.mp last
      exact of_word
    | false => cases last

theorem functionName (name : FunctionName) : KeepsSingle name.written := by
  have fields : KeepsSingle (name.fields.map (word "." * ·.written)).prod := by
    refine prod fun m member => ?_
    obtain ⟨id, -, rfl⟩ := List.mem_map.mp member
    exact (of_word).mul (identifier id)
  refine ((identifier name.root).mul fields).mul ?_
  cases name.method with
  | none => exact one
  | some method => exact word_mul ":" (identifier method) (.identifier method)

end KeepsSingle

open KeepsSingle in
mutual

theorem Expression.keepsSingle : ∀ e : Expression, KeepsSingle e.written
  | .literal value => .literal value
  | .name id => .identifier id
  | .group inner => ((of_word).mul inner.keepsSingle).mul of_word
  | .unary operator operand => word_mul operator.text operand.keepsSingle operand.opens
  | .binary operator left right => by
    rw [Expression.written, mul_assoc]
    exact left.keepsSingle.mul (word_mul operator.text right.keepsSingle right.opens)
  | .index base key => base.keepsSingle.mul (((of_word).mul key.keepsSingle).mul of_word)
  | .member base field => base.keepsSingle.mul ((of_word).mul (.identifier field))
  | .call callee arguments => callee.keepsSingle.mul arguments.keepsSingle
  | .methodCall object method arguments => object.keepsSingle.mul
      ((word_mul ":" (.identifier method) (.identifier method)).mul arguments.keepsSingle)
  | .table fields => ((of_word).mul (TableField.keepsSingleAll fields)).mul of_word
  | .function value => (of_word).mul value.keepsSingle

theorem Expression.keepsSingleEach : ∀ values : List Expression,
    ∀ l ∈ Expression.writtenEach values, KeepsSingle l
  | [] => nofun
  | e :: others => fun l member => by
    rcases List.mem_cons.mp member with rfl | inside
    · exact e.keepsSingle
    · exact Expression.keepsSingleEach others l inside

theorem Arguments.keepsSingle : ∀ a : Arguments, KeepsSingle a.written
  | .list values =>
    ((of_word).mul ((of_word).separatedBy (Expression.keepsSingleEach values))).mul of_word
  | .table fields => ((of_word).mul (TableField.keepsSingleAll fields)).mul of_word
  | .string value => .literal value

theorem TableField.keepsSingle : ∀ field : TableField, KeepsSingle field.written
  | .value value => value.keepsSingle
  | .keyed key value =>
    ((((of_word).mul key.keepsSingle).mul of_word).mul of_word).mul value.keepsSingle
  | .named name value => ((KeepsSingle.identifier name).mul of_word).mul value.keepsSingle

theorem TableField.keepsSingleAll : ∀ fields : List TableField,
    KeepsSingle (TableField.writtenAll fields)
  | [] => .one
  | [field] => field.keepsSingle.mul (KeepsSingle.one.add ((of_word).add of_word))
  | field :: next :: others =>
    field.keepsSingle.mul (((of_word).add of_word).mul (TableField.keepsSingleAll (next :: others)))

theorem FunctionBody.keepsSingle : ∀ body : FunctionBody, KeepsSingle body.written
  | .mk names isVararg block =>
    ((KeepsSingle.parameters names isVararg).mul (Statement.keepsSingleAll block)).mul of_word

theorem Clause.keepsSingle : ∀ c : Clause, KeepsSingle c.written
  | .mk condition block =>
    (condition.keepsSingle.mul of_word).mul (Statement.keepsSingleAll block)

theorem Clause.keepsSingleEach : ∀ clauses : List Clause,
    ∀ l ∈ Clause.writtenEach clauses, KeepsSingle l
  | [] => nofun
  | c :: others => fun l member => by
    rcases List.mem_cons.mp member with rfl | inside
    · exact c.keepsSingle
    · exact Clause.keepsSingleEach others l inside

theorem Statement.keepsSingle : ∀ s : Statement, KeepsSingle s.written
  | .localVariables ids values => by
    refine ((of_word).mul (KeepsSingle.names ids)).mul ?_
    split
    · exact .one
    · exact (of_word).mul ((of_word).separatedBy (Expression.keepsSingleEach values))
  | .assignment targets values =>
    (((of_word).separatedBy (Expression.keepsSingleEach targets)).mul of_word).mul
      ((of_word).separatedBy (Expression.keepsSingleEach values))
  | .call expression => expression.keepsSingle
  | .conditional clauses otherwise =>
    (((of_word).mul ((of_word).separatedBy (Clause.keepsSingleEach clauses))).mul
      (Statement.keepsSingleElse otherwise)).mul of_word
  | .whileLoop condition block => ((of_word).mul condition.keepsSingle).mul
      (((of_word).mul (Statement.keepsSingleAll block)).mul of_word)
  | .repeatLoop block condition =>
    (((of_word).mul (Statement.keepsSingleAll block)).mul of_word).mul condition.keepsSingle
  | .numericFor counter first last step block =>
    (((((((of_word).mul (.identifier counter)).mul of_word).mul first.keepsSingle).mul of_word).mul
      last.keepsSingle).mul (Expression.keepsSingleStep step)).mul
        (((of_word).mul (Statement.keepsSingleAll block)).mul of_word)
  | .genericFor ids iterators block =>
    ((((of_word).mul (KeepsSingle.names ids)).mul of_word).mul
      ((of_word).separatedBy (Expression.keepsSingleEach iterators))).mul
        (((of_word).mul (Statement.keepsSingleAll block)).mul of_word)
  | .doBlock block => ((of_word).mul (Statement.keepsSingleAll block)).mul of_word
  | .returning values =>
    ((of_word).mul ((of_word).separatedBy (Expression.keepsSingleEach values))).mul
      (KeepsSingle.one.add of_word)
  | .breakLoop => of_word
  | .goto label => KeepsSingle.gotoWord.mul (.identifier label)
  | .label name => ((of_word).mul (.identifier name)).mul of_word
  | .localFunction name value =>
    (((of_word).mul of_word).mul (.identifier name)).mul value.keepsSingle
  | .function name value => ((of_word).mul (.functionName name)).mul value.keepsSingle

theorem Statement.keepsSingleElse : ∀ otherwise : Option (List Statement),
    KeepsSingle (Statement.writtenElse otherwise)
  | none => .one
  | some block => (of_word).mul (Statement.keepsSingleAll block)

theorem Expression.keepsSingleStep : ∀ step : Option Expression,
    KeepsSingle (Expression.writtenStep step)
  | none => .one
  | some step => (of_word).mul step.keepsSingle

/-- In no program is such a sign followed by what could double it. -/
theorem Statement.keepsSingleAll : ∀ block : List Statement,
    KeepsSingle (Statement.writtenAll block)
  | [] => .semicolons
  | s :: others => by
    refine (KeepsSingle.semicolons.mul s.keepsSingle).mul ?_
    split
    · split
      · exact .one
      · exact .zero
    · exact Statement.keepsSingleAll others

end

end LuaFrontend
