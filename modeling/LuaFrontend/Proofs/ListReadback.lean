import LuaFrontend.Proofs.ExpressionReadback

set_option autoImplicit false

namespace LuaFrontend

open LuaFrontend.Grammar
open LuaFrontend.Parser

variable {dialect : Dialect} {w : Word} {rest : List Word} {n : Nat}

section Commas

variable {α γ : Type} {item : Parser α} {wordsOf : γ → List Word} {same : γ → α → Prop}
  {items : List γ}

theorem goes_afterCommas (shrinks : Shrinks (behind "," item))
    (each : ∀ i ∈ items, ∀ u more, u.closes →
      Goes dialect item (wordsOf i ++ u :: more) (u :: more) (same i))
    (closes : w.closes) (noComma : w.isText "," = false) :
    Goes dialect (afterCommas item)
      ((items.flatMap fun i => Word.sign "," :: wordsOf i) ++ w :: rest) (w :: rest)
      (List.Forall₂ same items) := by
  refine goes_many_items (fun u => u.closes) shrinks ?_ ?_ closes
    (goes_behind_other noComma)
  · intro i member u more ends
    exact goes_behind rfl (each i member u more ends)
  · intro i _
    exact ⟨_, _, rfl, rfl⟩

theorem goes_commaSeparated (shrinks : Shrinks (behind "," item))
    (each : ∀ i ∈ items, ∀ u more, u.closes →
      Goes dialect item (wordsOf i ++ u :: more) (u :: more) (same i))
    (some : items ≠ []) (closes : w.closes) (noComma : w.isText "," = false) :
    Goes dialect (commaSeparated item) (commas (items.map wordsOf) ++ w :: rest) (w :: rest)
      (List.Forall₂ same items) := by
  cases items with
  | nil => exact absurd rfl some
  | cons i items =>
    have others : Goes dialect (afterCommas item) (_ ++ w :: rest) (w :: rest) _ :=
      goes_afterCommas shrinks (fun j member => each j (List.mem_cons_of_mem _ member)) closes
        noComma
    have heads : ∀ j ∈ items, ∃ u more, Word.sign "," :: wordsOf j = u :: more ∧ u.closes :=
      fun _ _ => ⟨_, _, rfl, rfl⟩
    obtain ⟨u, more, head, ends⟩ := exists_head heads closes rest
    rw [commas_map_cons, List.append_assoc]
    rw [head] at others ⊢
    refine (each i List.mem_cons_self u more ends).bind fun first isFirst => ?_
    exact others.bind fun _ areOthers => goes_pure (.cons isFirst areOthers)

end Commas

theorem goes_expressionList {values : List Expression} (h : ∀ e ∈ values, e.ReadsBack dialect)
    (proper : Expression.IsProperAll dialect values) (room : Expression.levelsAll values ≤ n)
    (some : values ≠ []) (closes : w.closes) (noComma : w.isText "," = false) :
    Goes dialect (expressionList (levels n))
      (commas (Expression.wordsEach dialect values) ++ w :: rest) (w :: rest)
      (Alike Expression.mapSpansAll values) := by
  rw [Expression.wordsEach_eq]
  have shrinks := shrinks_behind "," (reads_expression (reads_levels n))
  refine (goes_commaSeparated shrinks ?_ some closes noComma).mono fun _ => alike_expressions
  intro e member u more ends
  have deep := Nat.le_trans (Expression.le_levelsAll member) room
  exact goes_expression (h e member) (Expression.isProperAll_iff.mp proper e member) deep ends

section Tables

theorem readsBack_value {value : Expression} (h : value.ReadsBack dialect) :
    (TableField.value value).ReadsBack dialect := by
  intro n w rest proper room closes noEquals
  have goes : Goes dialect (expression? (levels n)) (value.words dialect ++ w :: rest) _ _ :=
    goes_expression? h proper room closes
  obtain ⟨v, others, same, opens, next⟩ := Expression.begins proper
  have noBracket : v.isText "[" = false := Word.isText_of_opens opens (by decide)
  simp only [TableField.words]
  rw [same] at goes ⊢
  have noKey : Goes dialect isKey (v :: (others ++ w :: rest)) (v :: (others ++ w :: rest))
      (· = false) := by
    refine goes_current fun start => ?_
    by_cases name : v.1 = .identifier
    · rw [if_pos (show (v.token start).kind = .identifier from name)]
      have more := Word.isSome_of_kind name (by decide)
      cases others with
      | nil => exact goes_nextMatchesAny more fun _ => noEquals
      | cons u others =>
        refine goes_nextMatchesAny more fun _ => ?_
        exact Word.isText_equals_of_closes (next name u rfl)
    · rw [if_neg (show (v.token start).kind ≠ .identifier from name)]
      exact goes_pure rfl
  refine (goes_takes_other noBracket).no (noKey.no (goes.bind ?_))
  rintro _ ⟨read, rfl, alike⟩
  exact goes_pure ⟨_, rfl, congrArg TableField.value alike⟩

theorem readsBack_keyed {key value : Expression} (ofKey : key.ReadsBack dialect)
    (ofValue : value.ReadsBack dialect) : (TableField.keyed key value).ReadsBack dialect := by
  intro n w rest ⟨properKey, properValue⟩ room closes _
  have room : max (1 + key.inside) (1 + value.inside) ≤ n := room
  simp only [TableField.words, List.cons_append, List.append_assoc]
  refine (goes_takes rfl).yes ?_
  refine (goes_expression ofKey properKey (by omega) rfl).bind fun readKey sameKey => ?_
  refine (goes_expect rfl).bind fun _ _ => (goes_expect rfl).bind fun _ _ => ?_
  refine (goes_expression ofValue properValue (by omega) closes).bind fun read same => ?_
  exact goes_pure ⟨_, rfl, congrArg₂ TableField.keyed sameKey same⟩

theorem readsBack_named {value : Expression} (name : Identifier) (h : value.ReadsBack dialect) :
    (TableField.named name value).ReadsBack dialect := by
  intro n w rest ⟨_, proper⟩ room closes _
  have room : 1 + value.inside ≤ n := room
  simp only [TableField.words, List.cons_append]
  have key : Goes dialect isKey (name.word :: Word.sign "=" :: (value.words dialect ++ w :: rest))
      (name.word :: Word.sign "=" :: (value.words dialect ++ w :: rest)) (· = true) := by
    refine goes_current fun start => ?_
    rw [if_pos (show (name.word.token start).kind = .identifier from rfl)]
    exact goes_nextMatchesAny rfl fun _ => rfl
  refine (goes_takes_other rfl).no (key.yes (goes_current fun start => ?_))
  refine (goes_discard (goes_consumeNext rfl rfl)).bind fun _ _ => ?_
  refine (goes_expression h proper room closes).bind fun read same => goes_pure ⟨_, rfl, ?_⟩
  exact congrArg₂ TableField.named (alike_identifier rfl) same

/-- No field begins at the end of a table. -/
theorem goes_field?_end (room : 2 ≤ n) :
    Goes dialect (field? (levels n)) (Word.sign "\x7d" :: rest) (Word.sign "\x7d" :: rest)
      (· = none) := by
  obtain ⟨n, rfl⟩ := Nat.exists_eq_add_of_le' room
  have noBase : Goes dialect (base? (levels n)) (Word.sign "\x7d" :: rest)
      (Word.sign "\x7d" :: rest) (· = none) :=
    goes_current fun start => (goes_takes_other rfl).no (goes_pure rfl)
  have noPrimary : Goes dialect (primary? (levels (n + 1))) (Word.sign "\x7d" :: rest)
      (Word.sign "\x7d" :: rest) (· = none) := by
    refine goes_production (goes_current fun start => (goes_takes_other rfl).no ?_)
    refine goes_get fun c offers => ?_
    rw [offers.hasText]
    refine goes_production (noBase.bind ?_)
    rintro _ rfl
    exact goes_pure rfl
  have noOperand : Goes dialect (operand (levels (n + 1)) 0) (Word.sign "\x7d" :: rest)
      (Word.sign "\x7d" :: rest) (· = none) := by
    have noPrefixed : Goes dialect (prefixed? (levels (n + 1))) (Word.sign "\x7d" :: rest) _ _ :=
      goes_current fun start => noPrimary
    refine noPrefixed.bind ?_
    rintro _ rfl
    exact goes_pure rfl
  have noKey : Goes dialect isKey (Word.sign "\x7d" :: rest) (Word.sign "\x7d" :: rest)
      (· = false) :=
    goes_current fun start => goes_pure rfl
  refine (goes_takes_other rfl).no (noKey.no ((goes_production noOperand).bind ?_))
  rintro _ rfl
  exact goes_pure rfl

/-- The next field, behind a comma. -/
theorem goes_nextField {f : TableField} (h : f.ReadsBack dialect) (proper : f.IsProper dialect)
    (room : f.levels ≤ n) (closes : w.closes) (noEquals : w.isText "=" = false) :
    Goes dialect (do if ← separator then field? (levels n) else return none)
      (Word.sign "," :: f.words dialect ++ w :: rest) (w :: rest)
      (Present (Alike TableField.mapSpans f)) := by
  have comma : Goes dialect separator (Word.sign "," :: (f.words dialect ++ w :: rest))
      (f.words dialect ++ w :: rest) (· = true) := by
    refine goes_get fun c offers => ?_
    rw [offers.matchesAny]
    exact (goes_advance rfl).bind fun _ _ => goes_pure rfl
  exact comma.yes (h proper room closes noEquals)

theorem goes_nextField_end (below : Below) :
    Goes dialect (do if ← separator then field? below else return none)
      (Word.sign "\x7d" :: rest) (Word.sign "\x7d" :: rest) (· = none) := by
  have ended : Goes dialect separator (Word.sign "\x7d" :: rest) (Word.sign "\x7d" :: rest)
      (· = false) := by
    refine goes_get fun c offers => ?_
    rw [offers.matchesAny]
    exact goes_pure rfl
  exact ended.no (goes_pure rfl)

theorem goes_fields {fields : List TableField} (h : ∀ f ∈ fields, f.ReadsBack dialect)
    (proper : TableField.IsProperAll dialect fields) (room : TableField.levelsAll fields ≤ n) :
    Goes dialect (Grammar.fields (levels n))
      (commas (TableField.wordsEach dialect fields) ++ Word.sign "\x7d" :: rest)
      (Word.sign "\x7d" :: rest) (Alike TableField.mapSpansAll fields) := by
  rw [TableField.wordsEach_eq]
  cases fields with
  | nil =>
    refine (goes_field?_end room).bind ?_
    rintro _ rfl
    exact goes_pure rfl
  | cons first others =>
    have proper := TableField.isProperAll_iff.mp proper
    have deep := fun f member => Nat.le_trans (TableField.le_levelsAll (f := f) member) room
    have ends : ∀ f ∈ others, ∃ u more, Word.sign "," :: f.words dialect = u :: more ∧
        (u.closes ∧ u.isText "=" = false) :=
      fun _ _ => ⟨_, _, rfl, rfl, rfl⟩
    have loop : Goes dialect (many do if ← separator then field? (levels n) else return none)
        ((others.flatMap fun f => Word.sign "," :: f.words dialect) ++ Word.sign "\x7d" :: rest)
        (Word.sign "\x7d" :: rest) (List.Forall₂ (Alike TableField.mapSpans) others) := by
      refine goes_many_items (fun u => u.closes ∧ u.isText "=" = false)
        (Likeness.shrinks_nextField (reads_levels n)) ?_ ends ⟨rfl, rfl⟩
        (goes_nextField_end _)
      intro f member u more follows
      have member := List.mem_cons_of_mem first member
      exact goes_nextField (h f member) (proper f member) (deep f member) follows.1 follows.2
    have last : (Word.sign "\x7d").closes ∧ (Word.sign "\x7d").isText "=" = false := ⟨rfl, rfl⟩
    obtain ⟨u, more, head, closes, noEquals⟩ := exists_head ends last rest
    rw [commas_map_cons, List.append_assoc]
    rw [head] at loop ⊢
    have member : first ∈ first :: others := List.mem_cons_self
    refine (h first member (proper first member) (deep first member) closes noEquals).bind ?_
    rintro _ ⟨read, rfl, same⟩
    exact loop.bind fun _ alike => goes_pure (alike_fields (.cons same alike))

theorem goes_table {fields : List TableField} (h : ∀ f ∈ fields, f.ReadsBack dialect)
    (proper : TableField.IsProperAll dialect fields) (room : 1 + TableField.levelsAll fields ≤ n) :
    Goes dialect (levels n .table)
      (Word.sign "\x7b" ::
        (commas (TableField.wordsEach dialect fields) ++ Word.sign "\x7d" :: rest))
      rest (Alike TableField.mapSpansAll fields) := by
  obtain ⟨n, rfl⟩ := Nat.exists_eq_add_of_le room
  rw [Nat.add_assoc, Nat.add_comm]
  refine goes_production ((goes_expect rfl).bind fun _ _ => ?_)
  refine (goes_fields h proper (Nat.le_add_right _ _)).bind fun read same => ?_
  exact (goes_expect rfl).bind fun _ _ => goes_pure same

theorem readsBack_table {fields : List TableField} (h : ∀ f ∈ fields, f.ReadsBack dialect) :
    (Expression.table fields).ReadsBack dialect := by
  intro n limit w rest left good proper room _ _ next
  simp only [Expression.words, List.cons_append, List.append_assoc]
  refine goes_operand_of_prefixed (goes_prefixed?_of_primary rfl ?_) next
  refine goes_production (goes_current fun start => (goes_takes_other rfl).no ?_)
  refine goes_get fun c offers => ?_
  rw [offers.hasText]
  refine (goes_table h proper room).bind fun read same => goes_pure ⟨_, rfl, ?_⟩
  exact congrArg Expression.table same

end Tables

section Arguments

theorem readsBack_list {values : List Expression} (h : ∀ e ∈ values, e.ReadsBack dialect) :
    (Arguments.list values).ReadsBack dialect := by
  intro n rest proper room
  obtain ⟨n, rfl⟩ := Nat.exists_eq_add_of_le (show 1 + Expression.levelsAll values ≤ n from room)
  rw [Nat.add_assoc, Nat.add_comm]
  simp only [Arguments.words, List.cons_append, List.append_assoc]
  have inside : Goes dialect (arguments (levels (Expression.levelsAll values + n)))
      (commas (Expression.wordsEach dialect values) ++ Word.sign ")" :: rest)
      (Word.sign ")" :: rest) (Alike Expression.mapSpansAll values) := by
    cases values with
    | nil =>
      refine goes_get fun c offers => ?_
      rw [offers.hasText]
      exact goes_pure rfl
    | cons e others =>
      have list : Goes dialect (expressionList (levels _)) (_ ++ Word.sign ")" :: rest) _ _ :=
        goes_expressionList h proper (Nat.le_add_right _ n) (List.cons_ne_nil _ _) rfl rfl
      obtain ⟨v, behind, same, opens, -⟩ := Expression.begins proper.1
      have noEnd : v.isText ")" = false := Word.isText_of_opens opens (by decide)
      simp only [Expression.wordsEach_eq, commas_map_cons, same] at list ⊢
      refine goes_get fun c offers => ?_
      rw [offers.hasText, noEnd, if_neg Bool.false_ne_true]
      exact list
  refine goes_current fun start => (goes_takes rfl).yes (inside.bind fun read same => ?_)
  refine (goes_expect rfl).bind fun _ _ => goes_pure ⟨_, rfl, ?_⟩
  exact congrArg Arguments.list same

theorem readsBack_tableArgument {fields : List TableField}
    (h : ∀ f ∈ fields, f.ReadsBack dialect) : (Arguments.table fields).ReadsBack dialect := by
  intro n rest proper room
  simp only [Arguments.words, List.cons_append, List.append_assoc]
  refine goes_current fun start => (goes_takes_other rfl).no (goes_get fun c offers => ?_)
  rw [offers.hasText]
  refine (goes_table h proper room).bind fun read same => goes_pure ⟨_, rfl, ?_⟩
  exact congrArg Arguments.table same

theorem readsBack_string (value : Literal) : (Arguments.string value).ReadsBack dialect := by
  intro n rest proper _
  obtain ⟨kind, raw, span⟩ := value
  obtain ⟨rfl, -⟩ := proper
  refine goes_current fun start => (goes_takes_other rfl).no (goes_get fun c offers => ?_)
  rw [offers.hasText]
  exact (goes_advance rfl).bind fun _ _ => goes_pure ⟨_, rfl, rfl⟩

end Arguments

section Functions

/-- A name among the parameters, and the comma behind it if there is one. -/
theorem goes_parameter_name {words : List Word} {more : Bool} (front : List Identifier)
    (id : Identifier) (comma : Goes dialect (takes ",") words rest (· = more)) :
    Goes dialect (parameter ⟨front, false, true⟩) (id.word :: words) rest
      (Present fun list => ∃ name, Alike Identifier.mapSpan id name ∧
        list = ⟨front ++ [name], false, more⟩) := by
  refine goes_current fun start => ?_
  refine (goes_identifier rfl).bind fun name same => comma.bind ?_
  rintro _ rfl
  exact goes_pure ⟨_, rfl, name, alike_identifier same, rfl⟩

theorem goes_parameter_vararg (front : List Identifier) :
    Goes dialect (parameter ⟨front, false, true⟩) ((.vararg, "...") :: rest) rest
      (Present (· = ⟨front, true, false⟩)) := by
  refine goes_current fun start => ?_
  exact (goes_consume rfl fun _ => rfl).yes (goes_pure ⟨_, rfl, rfl⟩)

theorem goes_parameter_end (names : List Identifier) (isVararg : Bool) :
    Goes dialect (parameter ⟨names, isVararg, false⟩) rest rest (· = none) :=
  goes_pure rfl

/-- Parameters behind those that have been read. -/
theorem goes_grow_parameter {ids : List Identifier} {isVararg : Bool} (some : ids ≠ [] ∨ isVararg)
    (front : List Identifier) :
    Goes dialect (grow parameter ⟨front, false, true⟩)
      (parameterWords ids isVararg ++ Word.sign ")" :: rest) (Word.sign ")" :: rest)
      fun list => Alike (fun f => List.map (Identifier.mapSpan f)) (front ++ ids) list.names ∧
        list.isVararg = isVararg := by
  induction ids generalizing front with
  | nil =>
    obtain none | rfl := some
    · exact absurd rfl none
    · refine goes_grow shrinks_parameter (goes_parameter_vararg front) ?_
      rintro _ rfl
      refine goes_grow_end shrinks_parameter ⟨?_, rfl⟩ (goes_parameter_end front true)
      rw [List.append_nil]
      rfl
  | cons id ids ih =>
    by_cases more : ids ≠ [] ∨ isVararg
    · rw [parameterWords_cons id more]
      refine goes_grow shrinks_parameter (goes_parameter_name front id (goes_takes rfl)) ?_
      rintro _ ⟨name, same, rfl⟩
      refine (ih more (front ++ [name])).mono fun list ⟨alike, vararg⟩ => ⟨?_, vararg⟩
      simp only [Alike, List.map_append, List.append_assoc, List.map_cons, List.cons_append,
        List.nil_append] at alike same ⊢
      rw [same, alike]
    · simp only [ne_eq, not_or, not_not, Bool.not_eq_true] at more
      obtain ⟨rfl, rfl⟩ := more
      refine goes_grow shrinks_parameter (goes_parameter_name front id (goes_takes_other rfl)) ?_
      rintro _ ⟨name, same, rfl⟩
      refine goes_grow_end shrinks_parameter ⟨?_, rfl⟩ (goes_parameter_end _ false)
      simp only [Alike, List.map_append, List.map_cons, List.map_nil] at same ⊢
      rw [same]

theorem goes_parameters (ids : List Identifier) (isVararg : Bool) :
    Goes dialect parameters
      (Word.sign "(" :: (parameterWords ids isVararg ++ Word.sign ")" :: rest)) rest
      fun list => Alike (fun f => List.map (Identifier.mapSpan f)) ids list.names ∧
        list.isVararg = isVararg := by
  refine (goes_expect rfl).bind fun _ _ => ?_
  by_cases some : ids ≠ [] ∨ isVararg
  · have noEnd : ∃ v others, parameterWords ids isVararg = v :: others ∧ v.isText ")" = false := by
      cases ids with
      | nil =>
        obtain none | rfl := some
        · exact absurd rfl none
        · exact ⟨_, _, rfl, rfl⟩
      | cons id ids => exact ⟨_, _, rfl, rfl⟩
    obtain ⟨v, others, head, other⟩ := noEnd
    have loop : Goes dialect (grow parameter {}) (parameterWords ids isVararg ++ _ :: rest) _ _ :=
      goes_grow_parameter some []
    rw [head, List.cons_append] at loop ⊢
    refine (goes_takes_other other).no (loop.bind fun list good => ?_)
    exact (goes_expect rfl).bind fun _ _ => goes_pure good
  · simp only [ne_eq, not_or, not_not, Bool.not_eq_true] at some
    obtain ⟨rfl, rfl⟩ := some
    exact (goes_takes rfl).yes (goes_pure ⟨rfl, rfl⟩)

theorem readsBack_functionBody {ids : List Identifier} {isVararg : Bool} {block : Block}
    (h : Block.ReadsBack dialect block) :
    (FunctionBody.mk ids isVararg block).ReadsBack dialect := by
  intro n rest isProper room
  obtain ⟨-, proper⟩ := isProper
  simp only [FunctionBody.words, List.cons_append, List.append_assoc]
  refine goes_production ((goes_parameters ids isVararg).bind fun list read => ?_)
  obtain ⟨names, vararg⟩ := read
  refine (h proper room rfl).bind fun read same => (goes_expect rfl).bind fun _ _ => goes_pure ?_
  simp only [Alike, FunctionBody.mapSpans] at names same ⊢
  rw [names, vararg, same]

end Functions
end LuaFrontend
