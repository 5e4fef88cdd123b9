import LuaFrontend.Proofs.WrittenForm
import LuaFrontend.Tree.Outline

set_option autoImplicit false

namespace LuaFrontend

/-- What a token says, and where. -/
def Token.place (t : Token) : String × Span := (t.text, t.span)

/-- What a leaf says, and where. -/
@[simp] def Node.place? : Node → Option (String × Span)
  | .identifier id => some (id.name, id.span)
  | .literal spelled => some (spelled.raw, spelled.span)
  | _ => none

namespace Outline

mutual

/-- The places of the leaves, from left to right. -/
@[simp] def places : Outline → List (String × Span)
  | node head parts => head.place?.toList ++ placesAll parts

@[simp] def placesAll : List Outline → List (String × Span)
  | [] => []
  | o :: others => o.places ++ placesAll others

end

mutual

theorem filterMap_preorderAt (depth : Nat) (o : Outline) :
    (o.preorderAt depth).filterMap (·.2.place?) = o.places := by
  cases o with
  | node head parts =>
    rw [preorderAt, places, ← filterMap_preorderListAt (depth + 1) parts, List.filterMap_cons]
    cases head.place? <;> rfl

theorem filterMap_preorderListAt (depth : Nat) (os : List Outline) :
    (preorderListAt depth os).filterMap (·.2.place?) = placesAll os := by
  cases os with
  | nil => rfl
  | cons o others =>
    rw [preorderListAt, placesAll, List.filterMap_append, filterMap_preorderAt depth o,
      filterMap_preorderListAt depth others]

end

@[simp] theorem placesAll_append (first second : List Outline) :
    placesAll (first ++ second) = placesAll first ++ placesAll second := by
  induction first with
  | nil => rfl
  | cons o others ih => rw [List.cons_append, placesAll, placesAll, ih, List.append_assoc]

@[simp] theorem places_ofIdentifier (id : Identifier) :
    (ofIdentifier id).places = [(id.name, id.span)] := rfl

@[simp] theorem places_ofBlock (statements : List Outline) :
    (ofBlock statements).places = placesAll statements := rfl

@[simp] theorem places_ofTable (fields : List Outline) :
    (ofTable fields).places = placesAll fields := rfl

end Outline

/-- In every sequence of the language the places occur in this order. -/
def Covers (l : Language Token) (places : List (String × Span)) : Prop :=
  ∀ tokens ∈ l, places.Sublist (tokens.map Token.place)

namespace Covers

variable {l m : Language Token} {first second : List (String × Span)}

theorem nothing (l : Language Token) : Covers l [] := fun _ _ => List.nil_sublist _

theorem mul (h : Covers l first) (g : Covers m second) : Covers (l * m) (first ++ second) := by
  intro tokens member
  obtain ⟨front, inFront, back, inBack, rfl⟩ := Language.mem_mul.mp member
  rw [List.map_append]
  exact (h front inFront).append (g back inBack)

theorem left (h : Covers l first) : Covers (l * m) first := by
  simpa using h.mul (nothing m)

theorem right (h : Covers m first) : Covers (l * m) first := by
  simpa using (nothing l).mul h

theorem prod {languages : List (Language Token)} {places : List (List (String × Span))}
    (h : List.Forall₂ Covers languages places) : Covers languages.prod places.flatten := by
  induction h with
  | nil => exact nothing _
  | cons first _ ih =>
    rw [List.prod_cons, List.flatten_cons]
    exact first.mul ih

theorem separatedBy {languages : List (Language Token)}
    {places : List (List (String × Span))} (h : List.Forall₂ Covers languages places) :
    Covers (separatedBy l languages) places.flatten := by
  cases h with
  | nil => exact nothing _
  | cons first others =>
    rw [LuaFrontend.separatedBy, List.flatten_cons]
    refine first.mul (prod ?_)
    rw [List.forall₂_map_left_iff]
    exact others.imp fun _ _ covers => covers.right

theorem identifier (id : Identifier) : Covers id.written [(id.name, id.span)] := by
  rintro tokens ⟨t, rfl, -, rfl⟩
  exact List.Sublist.refl _

theorem identifiers (names : List Identifier) :
    List.Forall₂ Covers (names.map (·.written)) (names.map fun id => [(id.name, id.span)]) := by
  rw [List.forall₂_map_left_iff, List.forall₂_map_right_iff, List.forall₂_same]
  exact fun id _ => identifier id

theorem literal (value : Literal) : Covers value.written [(value.raw, value.span)] := by
  rintro tokens ⟨t, rfl, same⟩
  have place : (value.raw, value.span) = t.place := by
    cases kind : t.kind <;> simp [Literal.ofToken?, kind] at same <;> subst same <;> rfl
  rw [place]
  exact List.Sublist.refl _

end Covers

theorem placesAll_eq (os : List Outline) :
    Outline.placesAll os = (os.map Outline.places).flatten := by
  induction os with
  | nil => rfl
  | cons o others ih => rw [Outline.placesAll, ih, List.map_cons, List.flatten_cons]

theorem placesAll_identifiers (names : List Identifier) :
    Outline.placesAll (names.map .ofIdentifier) =
      (names.map fun id => [(id.name, id.span)]).flatten := by
  induction names with
  | nil => rfl
  | cons id others ih =>
    rw [List.map_cons, Outline.placesAll, ih]
    rfl

theorem covers_names (names : List Identifier) :
    Covers (separatedBy (word ",") (names.map (·.written)))
      (Outline.placesAll (names.map .ofIdentifier)) := by
  rw [placesAll_identifiers]
  exact .separatedBy (Covers.identifiers names)

theorem covers_list {values : List Expression}
    (h : List.Forall₂ Covers (Expression.writtenEach values)
      ((Outline.ofExpressions values).map Outline.places)) :
    Covers (separatedBy (word ",") (Expression.writtenEach values))
      (Outline.placesAll (Outline.ofExpressions values)) := by
  rw [placesAll_eq]
  exact .separatedBy h

theorem places_path (base : Outline) (fields : List Identifier) :
    (fields.foldl (fun base field => .node .member [base, .ofIdentifier field]) base).places =
      base.places ++ (fields.map fun id => [(id.name, id.span)]).flatten := by
  induction fields generalizing base with
  | nil => simp
  | cons field others ih =>
    rw [List.foldl_cons, ih]
    simp

theorem FunctionName.covers (name : FunctionName) : Covers name.written name.outline.places := by
  have fields : List.Forall₂ Covers (name.fields.map (word "." * ·.written))
      (name.fields.map fun id => [(id.name, id.span)]) := by
    rw [List.forall₂_map_left_iff, List.forall₂_map_right_iff, List.forall₂_same]
    exact fun id _ => (Covers.identifier id).right
  have path := (Covers.identifier name.root).mul (.prod fields)
  unfold FunctionName.written FunctionName.outline
  cases name.method with
  | none => simpa [places_path] using path
  | some method =>
    simpa [places_path] using
      path.mul (Covers.identifier method).right

theorem FunctionBody.places_outline (value : FunctionBody) (isLocal : Bool) (name : List Outline) :
    (value.outline isLocal name).places =
      Outline.placesAll name ++ (value.outline false []).places := by
  cases value
  simp [FunctionBody.outline]

theorem covers_parameters (names : List Identifier) (isVararg : Bool) :
    Covers (writtenParameters names isVararg)
      (names.map fun id => [(id.name, id.span)]).flatten := by
  cases isVararg with
  | true =>
    have last : List.Forall₂ Covers [word "..."] [[]] := .cons (.nothing _) .nil
    have all := Covers.separatedBy (l := word ",") (List.rel_append (Covers.identifiers names) last)
    simpa [writtenParameters] using all.right.left
  | false =>
    have all := Covers.separatedBy (l := word ",") (Covers.identifiers names)
    simpa [writtenParameters] using all.right.left

mutual

theorem Expression.covers (e : Expression) : Covers e.written e.outline.places := by
  cases e with
  | literal value =>
    simpa [Expression.written, Expression.outline, Outline.leaf] using Covers.literal value
  | name id => exact Covers.identifier id
  | group inner => simpa [Expression.written, Expression.outline] using inner.covers.right.left
  | unary operator operand =>
    simpa [Expression.written, Expression.outline] using operand.covers.right
  | binary operator left right =>
    simpa [Expression.written, Expression.outline] using left.covers.left.mul right.covers
  | index base key =>
    simpa [Expression.written, Expression.outline] using base.covers.mul key.covers.right.left
  | member base field =>
    simpa [Expression.written, Expression.outline] using
      base.covers.mul (Covers.identifier field).right
  | call callee arguments =>
    simpa [Expression.written, Expression.outline] using callee.covers.mul arguments.covers
  | methodCall object method arguments =>
    simpa [Expression.written, Expression.outline] using
      object.covers.mul ((Covers.identifier method).right.mul arguments.covers)
  | table fields => exact (TableField.coversAll fields).right.left
  | function value => exact value.covers.right

theorem Expression.coversEach (values : List Expression) :
    List.Forall₂ Covers (Expression.writtenEach values)
      ((Outline.ofExpressions values).map Outline.places) := by
  cases values with
  | nil => exact .nil
  | cons e others => exact .cons e.covers (Expression.coversEach others)

theorem Arguments.covers (arguments : Arguments) :
    Covers arguments.written (Outline.placesAll arguments.outlines) := by
  cases arguments with
  | list values =>
    exact (covers_list (Expression.coversEach values)).right.left
  | table fields =>
    simpa [Arguments.written, Arguments.outlines] using (TableField.coversAll fields).right.left
  | string value =>
    simpa [Arguments.written, Arguments.outlines, Outline.leaf] using Covers.literal value

theorem TableField.covers (f : TableField) : Covers f.written f.outline.places := by
  cases f with
  | value value => simpa [TableField.written, TableField.outline] using value.covers
  | keyed key value =>
    simpa [TableField.written, TableField.outline] using
      key.covers.right.left.left.mul value.covers
  | named name value =>
    simpa [TableField.written, TableField.outline] using
      (Covers.identifier name).left.mul value.covers

theorem TableField.coversAll (fields : List TableField) :
    Covers (TableField.writtenAll fields) (Outline.placesAll (Outline.ofFields fields)) := by
  cases fields with
  | nil => exact .nothing _
  | cons f others =>
    refine f.covers.mul ?_
    cases others with
    | nil => exact .nothing _
    | cons next others => exact (TableField.coversAll (next :: others)).right

theorem FunctionBody.covers (value : FunctionBody) :
    Covers value.written (value.outline false []).places := by
  cases value with
  | mk parameters isVararg block =>
    simpa [FunctionBody.written, FunctionBody.outline, placesAll_identifiers] using
      ((covers_parameters parameters isVararg).mul (Statement.coversAll block)).left

theorem Clause.covers (value : Clause) :
    Covers value.written (Outline.placesAll value.outlines) := by
  cases value with
  | mk condition block =>
    simpa [Clause.written, Clause.outlines] using
      condition.covers.left.mul (Statement.coversAll block)

theorem Clause.coversEach (clauses : List Clause) :
    ∃ places, List.Forall₂ Covers (Clause.writtenEach clauses) places ∧
      places.flatten = Outline.placesAll (Outline.ofClauses clauses) := by
  cases clauses with
  | nil => exact ⟨[], .nil, rfl⟩
  | cons value others =>
    obtain ⟨places, each, same⟩ := Clause.coversEach others
    refine ⟨_, .cons value.covers each, ?_⟩
    rw [List.flatten_cons, same, Outline.ofClauses, Outline.placesAll_append]

theorem Statement.covers (s : Statement) : Covers s.written s.outline.places := by
  cases s with
  | localVariables ids values =>
    have assigned : Covers (if values.isEmpty then 1
        else word "=" * separatedBy (word ",") (Expression.writtenEach values))
        (Outline.placesAll (Outline.ofExpressions values)) := by
      cases values with
      | nil => exact .nothing _
      | cons e others => exact (covers_list (Expression.coversEach (e :: others))).right
    simpa [Statement.written, Statement.outline] using (covers_names ids).right.mul assigned
  | assignment targets values =>
    have first := covers_list (Expression.coversEach targets)
    have second := covers_list (Expression.coversEach values)
    simpa [Statement.written, Statement.outline] using first.left.mul second
  | call expression => simpa [Statement.written, Statement.outline] using expression.covers
  | conditional clauses otherwise =>
    obtain ⟨places, each, same⟩ := Clause.coversEach clauses
    have guarded := Covers.separatedBy (l := word "elseif") each
    rw [same] at guarded
    simpa [Statement.written, Statement.outline] using
      (guarded.right.mul (Statement.coversElse otherwise)).left
  | whileLoop condition block =>
    simpa [Statement.written, Statement.outline] using
      condition.covers.right.mul (Statement.coversAll block).right.left
  | repeatLoop block condition =>
    simpa [Statement.written, Statement.outline] using
      (Statement.coversAll block).right.left.mul condition.covers
  | numericFor counter first last step block =>
    simpa [Statement.written, Statement.outline] using
      (((((Covers.identifier counter).right.left.mul first.covers).left.mul last.covers).mul
        (Expression.coversStep step)).mul (Statement.coversAll block).right.left)
  | genericFor ids iterators block =>
    have called := covers_list (Expression.coversEach iterators)
    simpa [Statement.written, Statement.outline] using
      ((covers_names ids).right.left.mul called).mul (Statement.coversAll block).right.left
  | doBlock block =>
    simpa [Statement.written, Statement.outline] using (Statement.coversAll block).right.left
  | returning values =>
    have given := covers_list (Expression.coversEach values)
    simpa [Statement.written, Statement.outline] using given.right.left
  | breakLoop => exact .nothing _
  | goto label =>
    simpa [Statement.written, Statement.outline] using (Covers.identifier label).right
  | label name =>
    simpa [Statement.written, Statement.outline] using (Covers.identifier name).right.left
  | localFunction name value =>
    simpa [Statement.written, Statement.outline, value.places_outline true] using
      (Covers.identifier name).right.mul value.covers
  | function name value =>
    simpa [Statement.written, Statement.outline, value.places_outline false [name.outline]] using
      name.covers.right.mul value.covers

theorem Statement.coversElse (otherwise : Option (List Statement)) :
    Covers (Statement.writtenElse otherwise)
      (Outline.placesAll (Outline.ofOtherwise otherwise)) := by
  cases otherwise with
  | none => exact .nothing _
  | some block =>
    simpa [Statement.writtenElse, Outline.ofOtherwise] using (Statement.coversAll block).right

theorem Expression.coversStep (step : Option Expression) :
    Covers (Expression.writtenStep step) (Outline.placesAll (Outline.ofStep step)) := by
  cases step with
  | none => exact .nothing _
  | some step => simpa [Expression.writtenStep, Outline.ofStep] using step.covers.right

theorem Statement.coversAll (block : List Statement) :
    Covers (Statement.writtenAll block) (Outline.placesAll (Outline.ofStatements block)) := by
  cases block with
  | nil => exact .nothing _
  | cons s others =>
    refine s.covers.right.mul ?_
    cases s.isReturn with
    | false => exact Statement.coversAll others
    | true =>
      cases others with
      | nil => exact .nothing _
      | cons next others => exact fun _ impossible => impossible.elim

end

end LuaFrontend
