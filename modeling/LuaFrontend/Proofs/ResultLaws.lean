import LuaFrontend.Proofs.Foresight
import LuaFrontend.Proofs.TokenReading
import LuaFrontend.Proofs.WordKinds

set_option autoImplicit false

namespace LuaFrontend

variable {dialect : Dialect}

namespace Cursor.IsLegible

variable {c d : Cursor} {tokens : List Token}

theorem of_passes (h : c.IsLegible dialect) (passes : c.Passes tokens d) :
    d.IsLegible dialect :=
  h.behind passes.upcoming (passes.dialect.trans h.dialect_eq)

theorem current (h : c.IsLegible dialect) (more : c.current.isEnd = false) :
    Word.IsWhole dialect c.current.spelling :=
  h.whole _ List.mem_cons_self more

theorem of_advance (h : c.IsLegible dialect) (run : advance c = .ok () d) :
    d.IsLegible dialect := by
  rcases advance_cases c with ⟨e, same, passes, -⟩ | ⟨t, rest, e, same, passes, -⟩ |
    ⟨x, rest, e, same, -⟩
  · rw [same] at run
    cases run
    exact h.of_passes passes
  · rw [same] at run
    cases run
    exact h.of_passes passes
  · rw [same] at run
    cases run

end Cursor.IsLegible

namespace Parser

variable {α β : Type} {start start' : Token → Prop} {good better : α → Token → Prop}
  {fine : β → Token → Prop} {p q : Parser α} {f : α → Parser β}

variable (dialect) in
/-- From a legible place with such a token the parser comes to another one, where what it gives and
the token there are good. -/
def Leaves (start : Token → Prop) (p : Parser α) (good : α → Token → Prop) : Prop :=
  ∀ ⦃c a d⦄, c.IsLegible dialect → start c.current → p c = .ok a d →
    d.IsLegible dialect ∧ good a d.current

variable (dialect) in
/-- Whatever the parser gives is good. -/
abbrev Gives (p : Parser α) (good : α → Prop) : Prop :=
  Leaves dialect (fun _ => True) p fun a _ => good a

section Basics

theorem Leaves.mono (h : Leaves dialect start p better) (le : ∀ a t, better a t → good a t) :
    Leaves dialect start p good :=
  fun _ _ _ legible begins run => (h legible begins run).imp_right (le _ _)

/-- Where the token does not matter, it may be any. -/
theorem Leaves.anywhere (h : Leaves dialect (fun _ => True) p good) : Leaves dialect start p good :=
  fun _ _ _ legible _ run => h legible trivial run

theorem Leaves.from (h : Leaves dialect start p good) (le : ∀ t, start' t → start t) :
    Leaves dialect start' p good :=
  fun _ _ _ legible begins run => h legible (le _ begins) run

theorem leaves_pure {a : α} (h : ∀ t, start t → good a t) : Leaves dialect start (pure a) good := by
  intro c b d legible begins run
  obtain ⟨rfl, rfl⟩ := pure_ok.mp run
  exact ⟨legible, h _ begins⟩

theorem gives_pure {good : α → Prop} {a : α} (h : good a) :
    Leaves dialect start (pure a) fun a _ => good a :=
  leaves_pure fun _ _ => h

/-- An optional part that is missing. -/
theorem gives_none : Leaves dialect start (pure none) fun (result : Option α) t =>
    ∀ a ∈ result, good a t :=
  leaves_pure (by simp)

theorem leaves_some {a : α} (h : ∀ t, start t → good a t) :
    Leaves dialect start (pure (some a)) fun result t => ∀ a ∈ result, good a t :=
  leaves_pure fun t begins _ member => Option.mem_some_iff.mp member ▸ h t begins

theorem gives_some {good : α → Prop} {a : α} (h : good a) :
    Leaves dialect start (pure (some a)) fun result _ => ∀ a ∈ result, good a :=
  leaves_some fun _ _ => h

theorem Leaves.bind (h : Leaves dialect start p good)
    (next : ∀ a, Leaves dialect (good a) (f a) fine) : Leaves dialect start (p >>= f) fine := by
  intro c b d legible begins run
  obtain ⟨a, e, first, second⟩ := bind_ok.mp run
  obtain ⟨further, isGood⟩ := h legible begins first
  exact next a further isGood second

/-- What the first parser gives matters, but not where. -/
theorem Gives.bind {good : α → Prop} (h : Gives dialect p good)
    (next : ∀ a, good a → Leaves dialect (fun _ => True) (f a) fine) :
    Leaves dialect start (p >>= f) fine :=
  Leaves.bind h.anywhere fun a _ _ _ legible isGood run => next a isGood legible trivial run

theorem leaves_failHere {fault : SyntaxFault} : Leaves dialect start (failHere fault) good :=
  fun _ _ _ _ _ run => (not_failHere_ok run).elim

theorem leaves_unexpected : Leaves dialect start unexpected good :=
  fun _ _ _ _ _ run => (not_unexpected_ok run).elim

theorem leaves_ite {condition : Prop} [Decidable condition]
    (yes : condition → Leaves dialect start p good)
    (no : ¬ condition → Leaves dialect start q good) :
    Leaves dialect start (if condition then p else q) good := by
  split
  · next h => exact yes h
  · next h => exact no h

theorem leaves_production {production : Production} (h : Leaves dialect start p good) :
    Leaves dialect start (Parser.production production p) good := by
  intro c a d legible begins run
  obtain ⟨e, body, rfl⟩ := production_ok.mp run
  obtain ⟨further, isGood⟩ := h (legible.record (.enter production)) begins body
  exact ⟨further.record _, isGood⟩

theorem leaves_current_bind {f : Token → Parser α}
    (h : ∀ t, start t → (t.isEnd = false → Word.IsWhole dialect t.spelling) →
      Leaves dialect (· = t) (f t) good) :
    Leaves dialect start (current >>= f) good := by
  intro c a d legible begins run
  exact h c.current begins legible.current legible rfl run

theorem leaves_get_bind {f : Cursor → Parser α}
    (h : ∀ c, c.dialect = dialect → start c.current →
      Leaves dialect (· = c.current) (f c) good) : Leaves dialect start (get >>= f) good := by
  intro c a d legible begins run
  exact h c legible.dialect_eq begins legible rfl run

theorem gives_advance : Gives dialect (liftM Cursor.advance : Parser Unit) fun _ => True :=
  fun _ _ _ legible _ run => ⟨legible.of_advance (liftM_ok.mp run), trivial⟩

theorem gives_next : Gives dialect (liftM Cursor.next : Parser Token) fun _ => True :=
  fun _ _ _ legible _ run => ⟨legible.of_passes (Cursor.passes_of_next (liftM_ok.mp run)), trivial⟩

theorem gives_discard {good : α → Prop} (h : Gives dialect p good) :
    Gives dialect (Functor.discard p) fun _ => True := by
  intro c u d legible begins run
  obtain ⟨a, first⟩ := discard_ok.mp run
  exact ⟨(h legible begins first).1, trivial⟩

end Basics

section Parts

variable {good : α → Prop} {text : String}

theorem gives_consume (pattern : Pattern) :
    Gives dialect (liftM (Cursor.consume pattern) : Parser Bool) fun _ => True := by
  rw [liftM_consume]
  refine leaves_get_bind fun c _ _ => leaves_ite (fun _ => ?_) fun _ => gives_pure trivial
  exact gives_advance.bind fun _ _ => gives_pure trivial

theorem gives_takes (text : String) : Gives dialect (takes text) fun _ => True :=
  gives_consume _

theorem gives_expect (text : String) : Gives dialect (expect text) fun _ => True :=
  (gives_takes text).bind fun _ _ =>
    leaves_ite (fun _ => gives_pure trivial) fun _ => leaves_failHere

theorem gives_nextMatchesAny (patterns : List Pattern) :
    Gives dialect (liftM (Cursor.nextMatchesAny patterns) : Parser Bool) fun _ => True := by
  rw [liftM_nextMatchesAny]
  exact gives_next.bind fun _ _ => gives_pure trivial

theorem gives_consumeNext (pattern : Pattern) :
    Gives dialect (liftM (Cursor.consumeNext pattern) : Parser Bool) fun _ => True := by
  rw [liftM_consumeNext]
  refine gives_next.bind fun _ _ => leaves_ite (fun _ => ?_) fun _ => gives_pure trivial
  exact gives_advance.bind fun _ _ => gives_advance.bind fun _ _ => gives_pure trivial

theorem gives_identifier : Gives dialect identifier (·.IsProper dialect) := by
  refine leaves_current_bind fun t _ whole => leaves_ite (fun named => ?_) fun _ => leaves_failHere
  have more : t.isEnd = false := by simp [Token.isEnd, named]
  exact gives_advance.bind fun _ _ =>
    gives_pure (Identifier.isProper_ofToken (whole more) named)

theorem leaves_required {good : α → Token → Prop} {what : Expectation}
    {part : Parser (Option α)}
    (h : Leaves dialect start part fun result t => ∀ a ∈ result, good a t) :
    Leaves dialect start (required what part) good :=
  fun _ _ _ legible begins run =>
    (h legible begins (required_ok.mp run)).imp_right fun all => all _ rfl

theorem gives_behind (h : Gives dialect p good) :
    Gives dialect (behind text p) fun result => ∀ a ∈ result, good a := by
  refine (gives_takes text).bind fun _ _ => leaves_ite (fun _ => ?_) fun _ => gives_none
  exact h.bind fun a isGood => gives_some isGood

theorem gives_manyUpTo {step : Parser (Option α)}
    (h : Gives dialect step fun result => ∀ a ∈ result, good a) (bound : List β) :
    Gives dialect (manyUpTo step bound) fun parts => ∀ a ∈ parts, good a := by
  induction bound with
  | nil => exact gives_pure (by simp)
  | cons _ bound ih =>
    refine h.bind fun result all => ?_
    cases result with
    | none => exact gives_pure (by simp)
    | some a =>
      refine ih.bind fun others ofOthers => gives_pure ?_
      exact List.forall_mem_cons.mpr ⟨all a rfl, ofOthers⟩

theorem gives_many {step : Parser (Option α)}
    (h : Gives dialect step fun result => ∀ a ∈ result, good a) :
    Gives dialect (many step) fun parts => ∀ a ∈ parts, good a :=
  leaves_get_bind fun _ _ _ => (gives_manyUpTo h _).anywhere

theorem gives_afterCommas (h : Gives dialect p good) :
    Gives dialect (afterCommas p) fun items => ∀ a ∈ items, good a :=
  gives_many (gives_behind h)

theorem gives_commaSeparated (h : Gives dialect p good) :
    Gives dialect (commaSeparated p) fun items => items ≠ [] ∧ ∀ a ∈ items, good a := by
  refine h.bind fun first isGood => (gives_afterCommas h).bind fun others ofOthers => ?_
  exact gives_pure ⟨List.cons_ne_nil _ _, List.forall_mem_cons.mpr ⟨isGood, ofOthers⟩⟩

/-- What every step keeps holds until there is no further step, and then the result is good. -/
theorem leaves_grow {step : α → Parser (Option α)} {keeps good : α → Token → Prop}
    (shrinks : ∀ a, Shrinks (step a))
    (round : ∀ a, Leaves dialect (keeps a) (step a) fun result t =>
      result.elim (good a t) (keeps · t)) (a : α) :
    Leaves dialect (keeps a) (grow step a) good := by
  intro c result d legible begins run
  obtain ⟨e, ⟨further, kept⟩, ends⟩ := grow_ok shrinks
    (fun b e => e.IsLegible dialect ∧ keeps b e.current)
    (fun b b' e f holds first => round b holds.1 holds.2 first)
    legible.input ⟨legible, begins⟩ run
  exact round result further kept ends

/-- What every step keeps, wherever it leaves off, holds of the result. -/
theorem gives_grow {step : α → Parser (Option α)} (shrinks : ∀ a, Shrinks (step a))
    (round : ∀ a, good a → Gives dialect (step a) fun result => ∀ b ∈ result, good b) {a : α}
    (h : good a) : Gives dialect (grow step a) good := by
  have all (b : α) : Leaves dialect (fun _ => good b) (step b) fun result _ =>
      result.elim (good b) good := by
    intro c result d legible isGood run
    obtain ⟨further, built⟩ := round b isGood legible trivial run
    refine ⟨further, ?_⟩
    cases result with
    | none => exact isGood
    | some next => exact built next rfl
  exact fun _ _ _ legible _ run => leaves_grow shrinks all a legible h run

end Parts

end Parser
end LuaFrontend
