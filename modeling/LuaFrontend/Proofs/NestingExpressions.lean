import LuaFrontend.Proofs.NestingLaws
import LuaFrontend.Proofs.ProperTree

set_option autoImplicit false

namespace LuaFrontend

/-- The levels below the one of the form itself. For an operand that is absent a suffixed expression
is looked for. -/
def Form.nesting : (form : Form) → form.Tree → Count
  | .block, statements => Statement.nestingEach statements
  | .operand _, result => result.elim Count.zero.nested Expression.nesting
  | .suffixed, result => result.elim .zero Expression.nestingChain
  | .table, fields => (TableField.nestingEach fields).beside (.tableEnd fields.isEmpty)
  | .arguments, values => Expression.nestingEach values

/-- What is said of the last token: no expression ends with a separator. -/
def Form.ends : (form : Form) → form.Tree → Spot → Spot → Prop
  | .operand _, result, s, t => result.elim (t.last = s.last) fun _ => t.IsClean
  | .suffixed, result, s, t => result.elim (t.last = s.last) fun e => e.isSuffixable ∧ t.IsClean
  | .table, _, _, t => t.IsClean
  | _, _, _, _ => True

theorem Expression.nesting_of_isSuffixable {e : Expression} (h : e.isSuffixable) :
    e.nesting = e.nestingChain.nested := by
  cases e <;> first | rfl | cases h

namespace Grammar

open LuaFrontend.Parser

variable (dialect : Dialect) (depth : Nat)

/-- Every form one level down needs what is counted for it. -/
def CountsForms : Prop :=
  ∀ form s, Counts dialect depth s (fun below => below form) fun a t =>
    s.Adds (form.nesting a).nested t ∧ form.ends a s t

variable {dialect depth} {s s₀ : Spot}

namespace CountsForms

variable (h : CountsForms dialect depth)

include h

theorem block (s : Spot) : Counts dialect depth s (fun below => below .block) fun block t =>
    s.Adds (Statement.nestingEach block).nested t :=
  (h .block s).mono fun _ _ => And.left

theorem operand (limit : Nat) (s : Spot) :
    Counts dialect depth s (fun below => below (.operand limit)) fun result t =>
      ∀ e ∈ result, s.Adds e.nesting.nested t ∧ t.IsClean := by
  refine (h (.operand limit) s).mono fun result t post e member => ?_
  cases member
  exact post

theorem table (s : Spot) : Counts dialect depth s (fun below => below .table) fun fields t =>
    s.Adds (Count.table (TableField.nestingEach fields) fields.isEmpty) t ∧ t.IsClean :=
  h .table s

theorem arguments (s : Spot) :
    Counts dialect depth s (fun below => below .arguments) fun values t =>
      s.Adds (Expression.nestingEach values).nested t :=
  (h .arguments s).mono fun _ _ => And.left

end CountsForms

theorem counts_expression? (h : CountsForms dialect depth) (s : Spot) :
    Counts dialect depth s expression? fun result t =>
      result.elim (s.Adds Count.zero.nested.nested t ∧ t.last = s.last) fun e =>
        s.Adds e.nesting.nested t ∧ t.IsClean := by
  refine counts_production ((h (.operand 0) s).mono fun result t post => ?_)
  cases result <;> exact post

theorem counts_expression (h : CountsForms dialect depth) (s : Spot) :
    Counts dialect depth s expression fun e t => s.Adds e.nesting.nested t ∧ t.IsClean :=
  counts_required (counts_production (h.operand 0 s))

theorem counts_expressionList (h : CountsForms dialect depth) (s : Spot) :
    Counts dialect depth s expressionList fun values t =>
      s.Adds (Expression.nestingEach values) t := by
  simp only [Expression.nestingEach_eq]
  exact counts_commaSeparated (fun s => (counts_expression h s).mono fun _ _ => And.left) s

section Functions

theorem counts_parameter (list : Parameters) (s : Spot) :
    Counts dialect depth s (fun _ => parameter list) fun _ t => s.Adds .zero t := by
  refine counts_ite (fun _ => counts_pure (.refl s)) fun _ => counts_current_bind fun _ =>
    counts_ite (fun _ => ?_) fun _ => ?_
  · refine counts_identifier.bind fun name t named => ?_
    exact counts_takes_bind (by decide) (fun _ _ => counts_pure named.1) (counts_pure named.1)
  · have vararg : Counts dialect depth s (fun _ => liftM (Cursor.consume (.kind .vararg)))
        fun _ t => s.Adds .zero t := by
      refine counts_consume (fun vararg => ?_) (fun _ _ => .refl s) (.refl s)
      simp only [Pattern.accepts, beq_iff_eq] at vararg
      exact ⟨Token.closesTable_of_kind (by simp [vararg]), by simp [Token.isEnd, vararg]⟩
    exact vararg.bind fun taken t adds => counts_ite (fun _ => counts_pure adds)
      fun _ => counts_expected _

theorem counts_parameters (s : Spot) :
    Counts dialect depth s (fun _ => parameters) fun _ t => s.Adds .zero t := by
  refine counts_expect_bind (by decide) fun _ now => counts_takes_ite (by decide)
    (fun _ _ => counts_pure (.refl s)) ?_
  have round (list : Parameters) (t : Spot) (kept : s.Adds .zero t) :
      Counts dialect depth t (fun _ => parameter list) fun result u =>
        result.elim (s.Adds .zero u) fun _ => s.Adds .zero u := by
    refine (counts_parameter list t).mono fun result u adds => ?_
    cases result <;> exact kept.zero_trans adds
  have all : Counts dialect depth (s.move now) (fun _ => grow parameter {}) fun _ t =>
      s.Adds .zero t := counts_grow round (.refl s)
  exact all.bind fun list t kept => counts_expect_bind (by decide) fun _ _ => counts_pure kept

theorem counts_functionBody (h : CountsForms dialect depth) (s : Spot) :
    Counts dialect depth s functionBody fun value t => s.Adds value.nesting t ∧ t.IsClean := by
  refine counts_production ((counts_parameters s).bind fun list t names => ?_)
  refine (h.block t).bind fun block u inside => counts_expect_bind (by decide) fun ending _ => ?_
  exact counts_pure
    ⟨names.zero_trans inside, Pattern.isSeparator_of_accepts ending (by decide)⟩

end Functions

section Tables

theorem counts_isKey (s : Spot) : Counts dialect depth s (fun _ => isKey) fun key t =>
    t = s ∧ (key → s.now.kind = .identifier) := by
  refine counts_of_run fun c key e _ here run => ?_
  obtain ⟨passes, named⟩ := isKey_ok run
  refine ⟨[], passes, ?_⟩
  rw [passes.current_eq, here, Spot.pass_nil]
  exact ⟨rfl, fun isKey => here ▸ (named isKey).1⟩

/-- Two tokens are taken, or none. -/
theorem counts_consumeNext {text : String} (named : s.now.kind = .identifier)
    (other : text ≠ "\x7d") :
    Counts dialect depth s (fun _ => liftM (Cursor.consumeNext (.text text)))
      fun (_ : Bool) t => s.Adds .zero t := by
  have plain : s.now.closesTable = false := Token.closesTable_of_kind (by simp [named])
  have more : s.now.isEnd = false := by simp [Token.isEnd, named]
  refine counts_of_run fun c taken e legible here run => ?_
  rw [liftM_consumeNext] at run
  obtain ⟨t, d, following, run⟩ := bind_ok.mp run
  have stays := Cursor.passes_of_next (liftM_ok.mp following)
  split at run
  · next accepted =>
    obtain ⟨_, f, first, run⟩ := bind_ok.mp run
    obtain ⟨_, g, second, result⟩ := bind_ok.mp run
    obtain ⟨rfl, rfl⟩ := pure_ok.mp result
    have same := Cursor.current_of_next_advance (liftM_ok.mp following) (liftM_ok.mp first)
    have atName : d.current = s.now := stays.current_eq.trans here
    have overName := Cursor.passes_of_advance (liftM_ok.mp first) (stays.input legible.input)
      (atName ▸ more)
    have overSign := Cursor.passes_of_advance (liftM_ok.mp second)
      (overName.input (stays.input legible.input)) (same ▸ isEnd_of_accepts accepted)
    refine ⟨_, (stays.trans overName).trans overSign, [], 0, Count.takes_zero, rfl, ?_⟩
    have sign := Pattern.closesTable_of_accepts accepted other
    simp [Spot.pass, tableMarks, atName, plain, same, sign]
  · obtain ⟨-, rfl⟩ := pure_ok.mp run
    exact ⟨[], stays, by rw [stays.current_eq, here, Spot.pass_nil]; exact .refl s⟩

theorem counts_field? (h : CountsForms dialect depth) (s : Spot) :
    Counts dialect depth s field? fun result t =>
      result.elim (s.Adds Count.zero.nested.nested t ∧ t.last = s.last) fun f =>
        s.Adds f.nesting t ∧ t.IsClean := by
  refine counts_takes_ite (by decide) (fun _ now => ?_) ?_
  · refine (counts_expression h _).bind fun key t ofKey => counts_expect_bind (by decide)
      fun _ _ => counts_expect_bind (by decide) fun _ _ => ?_
    exact (counts_expression h _).bind fun value u ofValue =>
      counts_pure ⟨ofKey.1.trans ofValue.1, ofValue.2⟩
  · refine (counts_isKey s).bind fun key t found => ?_
    obtain ⟨rfl, named⟩ := found
    refine counts_ite (fun isKey => counts_current_bind fun _ => ?_) fun _ => ?_
    · refine (counts_discard (counts_consumeNext (named isKey) (by decide))).bind fun _ u name => ?_
      exact (counts_expression h u).bind fun value v ofValue =>
        counts_pure ⟨name.zero_trans ofValue.1, ofValue.2⟩
    · refine (counts_expression? h t).bind fun result u found => ?_
      cases result <;> exact counts_pure found

theorem counts_separator (s : Spot) : Counts dialect depth s (fun _ => separator) fun found t =>
    if found then s.Adds .zero t ∧ t.last.any (·.isSeparator) else t = s := by
  refine counts_get_bind fun c legible here => counts_ite (fun accepted => ?_) fun _ =>
    counts_pure rfl
  obtain ⟨text, sign, taken⟩ : ∃ text ∈ [",", ";"], (Pattern.text text).accepts s.now := by
    simpa [Cursor.matchesAny, here] using accepted
  have symbol : s.now.kind = .symbol :=
    Pattern.symbol_of_accepts taken (here ▸ legible.current) (List.mem_append_left ["\x7d"] sign)
  have separates : s.now.isSeparator := by
    simpa [Token.isSeparator, symbol, Pattern.text_of_accepts taken] using sign
  have plain : s.now.closesTable = false := by
    refine Pattern.closesTable_of_accepts taken ?_
    rintro rfl
    simp at sign
  exact counts_advance_bind plain (isEnd_of_accepts taken) fun now =>
    counts_pure ⟨.refl s, separates⟩

/-- The last field has ended at the first place. At the second one there may be a separator more, or
there was no field at all, and then another one has been looked for. -/
def FieldsEnd (isEmpty : Bool) (u t : Spot) : Prop :=
  t.marks = u.marks ∧
    t.levels = max u.levels (if isEmpty || t.last.any (·.isSeparator) then 2 else 0)

theorem FieldsEnd.of_clean (h : s.IsClean) : FieldsEnd false s s := by
  refine ⟨rfl, ?_⟩
  rw [show s.last.any (·.isSeparator) = false from h]
  exact (Nat.max_zero _).symm

/-- A field that is looked for in vain takes two levels. -/
theorem FieldsEnd.of_probe {isEmpty : Bool} {u t v : Spot} (h : u.Adds .zero t)
    (g : t.Adds Count.zero.nested.nested v) (probed : isEmpty || v.last.any (·.isSeparator)) :
    FieldsEnd isEmpty u v := by
  obtain ⟨marks, n, takes, levels, same⟩ := h.zero_trans g
  obtain ⟨rfl, left⟩ := Prod.mk.inj (takes []).symm
  obtain rfl : marks = [] := by simpa [Count.nested, Count.zero] using left.symm
  exact ⟨by simpa using same, by rw [if_pos probed]; exact levels⟩

theorem FieldsEnd.adds {isEmpty : Bool} {u t : Spot} (h : FieldsEnd isEmpty u t) (now : Token) :
    u.Adds (.tableEnd isEmpty)
      ⟨t.levels, t.marks ++ [t.last.any (·.isSeparator)], some t.now, now⟩ := by
  refine ⟨_, _, Count.takes_tableEnd isEmpty (t.last.any (·.isSeparator)), h.2, ?_⟩
  rw [h.1]

/-- The next field, if a separator is in front of it. -/
theorem counts_nextField (h : CountsForms dialect depth) (clean : s.IsClean) :
    Counts dialect depth s
      (fun below => (separator >>= fun found =>
        if found = true then field? below else pure none : Parser (Option TableField)))
      fun result t =>
        result.elim (FieldsEnd false s t) fun f => s.Adds f.nesting t ∧ t.IsClean := by
  refine (counts_separator s).bind fun found t taken => counts_ite (fun yes => ?_) fun no => ?_
  · subst yes
    obtain ⟨adds, separates⟩ := taken
    refine (counts_field? h t).mono fun result u found => ?_
    cases result with
    | none => exact .of_probe adds found.1 (by simpa [found.2] using separates)
    | some f => exact ⟨adds.zero_trans found.1, found.2⟩
  · obtain rfl : t = s := by simpa [no] using taken
    exact counts_pure (.of_clean clean)

theorem counts_fields (h : CountsForms dialect depth) (s : Spot) :
    Counts dialect depth s fields fun fields t =>
      ∃ u, s.Adds (TableField.nestingEach fields) u ∧ FieldsEnd fields.isEmpty u t := by
  refine (counts_field? h s).bind fun first t found => ?_
  cases first with
  | none => exact counts_pure ⟨s, .refl s, .of_probe (.refl s) found.1 rfl⟩
  | some first =>
    have all := counts_many_ending (fun s clean => counts_nextField h clean)
      (fun s clean => .of_clean clean) found.2
    refine all.bind fun others u post => ?_
    obtain ⟨v, adds, -, ended⟩ := post
    refine counts_pure ⟨v, ?_, ended⟩
    rw [TableField.nestingEach, TableField.nestingEach_eq]
    exact found.1.trans adds

/-- The brace that ends a table leaves its mark. -/
theorem counts_closing (s : Spot) : Counts dialect depth s (fun _ => expect "\x7d") fun _ t =>
    (∃ now, t = ⟨s.levels, s.marks ++ [s.last.any (·.isSeparator)], some s.now, now⟩) ∧
      t.IsClean := by
  refine counts_of_run fun c u e legible here run => ?_
  obtain ⟨accepted, moved⟩ := consume_ok (liftM_ok.mp (expect_ok.mp run))
  have passes := Cursor.passes_of_advance moved legible.input (isEnd_of_accepts accepted)
  have symbol := Pattern.symbol_of_accepts accepted legible.current (by simp)
  rw [here] at accepted symbol
  have closes : s.now.closesTable := by
    simp [Token.closesTable, symbol, Pattern.text_of_accepts accepted]
  refine ⟨[c.current], passes, ⟨e.current, ?_⟩, ?_⟩
  · simp [Spot.pass, tableMarks, here, closes]
  · rw [here]
    exact Pattern.isSeparator_of_accepts accepted (by decide)

theorem counts_table (h : CountsForms dialect depth) (s : Spot) :
    Counts dialect depth s table fun fields t =>
      s.Adds ((TableField.nestingEach fields).beside (.tableEnd fields.isEmpty)) t ∧ t.IsClean := by
  refine counts_production (counts_expect_bind (by decide) fun _ now => ?_)
  refine (counts_fields h _).bind fun fields t post => (counts_closing t).bind fun _ v closed => ?_
  obtain ⟨u, adds, ended⟩ := post
  obtain ⟨⟨next, rfl⟩, clean⟩ := closed
  exact counts_pure ⟨adds.trans (ended.adds next), clean⟩

end Tables

section Suffixes

theorem counts_arguments (h : CountsForms dialect depth) (s : Spot) :
    Counts dialect depth s arguments fun values t => s.Adds (Expression.nestingEach values) t :=
  counts_get_bind fun _ _ _ => counts_ite (fun _ => counts_pure (.refl s)) fun _ =>
    counts_expressionList h s

theorem counts_callArguments? (h : CountsForms dialect depth) (s : Spot) :
    Counts dialect depth s callArguments? fun result t =>
      result.elim (t = s) fun arguments => s.Adds arguments.nesting t ∧ t.IsClean := by
  refine counts_current_bind fun _ => counts_takes_ite (by decide) (fun _ now => ?_)
    (counts_get_bind fun _ _ _ => counts_ite (fun _ => ?_) fun _ =>
      counts_ite (fun string => ?_) fun _ => counts_pure rfl)
  · refine (h.arguments _).bind fun values t adds =>
      counts_expect_bind (by decide) fun ending _ => ?_
    exact counts_pure ⟨adds, Pattern.isSeparator_of_accepts ending (by decide)⟩
  · exact (h.table s).bind fun fields t post => counts_pure post
  · have other : s.now.kind ≠ .symbol := by simp [string]
    exact counts_advance_bind (Token.closesTable_of_kind other) (by simp [Token.isEnd, string])
      fun now => counts_pure ⟨.refl s, Token.isSeparator_of_kind other⟩

/-- What a chain of suffixes has come to. -/
def Chained (s : Spot) (e : Expression) (t : Spot) : Prop :=
  e.isSuffixable ∧ s.Adds e.nestingChain t ∧ t.IsClean

theorem counts_base? (h : CountsForms dialect depth) (s : Spot) :
    Counts dialect depth s base? fun result t => result.elim (t = s) (Chained s · t) := by
  refine counts_current_bind fun _ => counts_ite (fun _ => ?_) fun _ =>
    counts_takes_ite (by decide) (fun _ now => ?_) (counts_pure rfl)
  · exact counts_identifier.bind fun id t named => counts_pure ⟨rfl, named⟩
  · refine (counts_expression h _).bind fun inner t ofInner =>
      counts_expect_bind (by decide) fun ending _ => ?_
    exact counts_pure ⟨rfl, ofInner.1, Pattern.isSeparator_of_accepts ending (by decide)⟩

theorem counts_suffix? (h : CountsForms dialect depth) {base : Expression}
    (chained : Chained s₀ base s) :
    Counts dialect depth s (fun below => suffix? below base) fun result t =>
      result.elim (Chained s₀ base t) (Chained s₀ · t) := by
  obtain ⟨isBase, adds, clean⟩ := chained
  refine counts_takes_ite (by decide) (fun _ now => ?_) (counts_takes_ite (by decide)
    (fun _ now => ?_) (counts_takes_ite (by decide) (fun _ now => ?_) ?_))
  · refine (counts_expression h _).bind fun key t ofKey =>
      counts_expect_bind (by decide) fun ending _ => ?_
    exact counts_pure
      ⟨rfl, adds.trans ofKey.1, Pattern.isSeparator_of_accepts ending (by decide)⟩
  · exact counts_identifier.bind fun field t named =>
      counts_pure ⟨rfl, adds.trans_zero named.1, named.2⟩
  · refine counts_identifier.bind fun method t named => ?_
    have required : Counts dialect depth t
        (fun below => required .arguments (callArguments? below)) fun arguments u =>
          t.Adds arguments.nesting u ∧ u.IsClean := by
      refine counts_required ((counts_callArguments? h t).mono fun result u post a member => ?_)
      cases member
      exact post
    refine required.bind fun arguments u post => counts_pure ⟨rfl, ?_, post.2⟩
    exact (adds.trans_zero named.1).trans post.1
  · refine (counts_callArguments? h s).bind fun result t post => ?_
    cases result with
    | none => exact counts_pure (post ▸ ⟨isBase, adds, clean⟩)
    | some arguments => exact counts_pure ⟨rfl, adds.trans post.1, post.2⟩

theorem counts_suffixed (h : CountsForms dialect depth) (s : Spot) :
    Counts dialect depth s suffixed fun result t => result.elim (t = s) (Chained s · t) := by
  refine counts_production ((counts_base? h s).bind fun base t found => ?_)
  cases base with
  | none => exact counts_pure found
  | some base =>
    have grown := counts_grow (fun e t chained => counts_suffix? h chained) found
    exact grown.bind fun whole u chained => counts_pure chained

end Suffixes

section Operators

theorem kind_of_literal {t : Token} {value : Literal} (h : Literal.ofToken? t = some value) :
    t.kind ≠ .symbol := by
  intro symbol
  simp [Literal.ofToken?, symbol] at h

/-- An operand has been read, or a suffixed expression was looked for in vain. -/
def Found (s : Spot) (result : Option Expression) (t : Spot) : Prop :=
  result.elim (s.Adds Count.zero.nested t ∧ t.last = s.last) fun e => s.Adds e.nesting t ∧ t.IsClean

theorem counts_primary? (h : CountsForms dialect depth) (s : Spot) :
    Counts dialect depth s primary? (Found s) := by
  refine counts_production (counts_current_bind fun _ => ?_)
  cases found : Literal.ofToken? s.now with
  | some value =>
    have other := kind_of_literal found
    exact counts_advance_bind (Token.closesTable_of_kind other) (isEnd_of_literal found)
      fun now => counts_pure ⟨.refl s, Token.isSeparator_of_kind other⟩
  | none =>
    refine counts_takes_ite (by decide) (fun _ now => ?_)
      (counts_get_bind fun _ _ _ => counts_ite (fun _ => ?_) fun _ => ?_)
    · exact (counts_functionBody h _).bind fun value t post => counts_pure post
    · exact (h.table s).bind fun fields t post => counts_pure post
    · refine (h .suffixed s).mono fun result t post => ?_
      cases result with
      | none => exact post
      | some e =>
        refine ⟨?_, post.2.2⟩
        rw [Expression.nesting_of_isSuffixable post.2.1]
        exact post.1

theorem counts_prefixed? (h : CountsForms dialect depth) (s : Spot) :
    Counts dialect depth s prefixed? (Found s) := by
  refine counts_current_bind fun _ => ?_
  cases found : unaryOperator? s.now with
  | none => exact counts_primary? h s
  | some operator =>
    have accepted := accepts_of_unaryOperator? found
    have plain : s.now.closesTable = false :=
      Pattern.closesTable_of_accepts accepted (by cases operator <;> decide)
    refine counts_advance_bind plain (isEnd_of_accepts accepted) fun now => ?_
    exact (counts_required (h.operand _ _)).bind fun operand t post => counts_pure post

/-- What operators have joined. -/
def Joined (s : Spot) (e : Expression) (t : Spot) : Prop := s.Adds e.nesting t ∧ t.IsClean

theorem counts_joined? (h : CountsForms dialect depth) (limit : Nat) {left : Expression}
    (joined : Joined s₀ left s) :
    Counts dialect depth s (fun below => joined? below limit left) fun result t =>
      result.elim (Joined s₀ left t) (Joined s₀ · t) := by
  refine counts_current_bind fun _ => ?_
  cases found : binaryOperator? s.now with
  | none => exact counts_pure joined
  | some operator =>
    refine counts_ite (fun _ => counts_pure joined) fun _ => ?_
    have accepted := accepts_of_binaryOperator? found
    have plain : s.now.closesTable = false :=
      Pattern.closesTable_of_accepts accepted (by cases operator <;> decide)
    refine counts_advance_bind plain (isEnd_of_accepts accepted) fun now => ?_
    exact (counts_required (h.operand _ _)).bind fun right t post =>
      counts_pure ⟨joined.1.trans post.1, post.2⟩

theorem counts_operand (h : CountsForms dialect depth) (limit : Nat) (s : Spot) :
    Counts dialect depth s (fun below => operand below limit) (Found s) := by
  refine (counts_prefixed? h s).bind fun left t found => ?_
  cases left with
  | none => exact counts_pure found
  | some left =>
    have grown := counts_grow (fun e t joined => counts_joined? h limit joined) found
    exact grown.bind fun whole u joined => counts_pure joined

end Operators

end Grammar
end LuaFrontend
