import LuaFrontend.Proofs.ParserLaw

set_option autoImplicit false

namespace LuaFrontend

open LuaFrontend.Parser

/-- How runs are related to where they began: those that succeed by where they end, and those that
fail by their error and where it was met. -/
structure RunRelation where
  leads : Cursor → Cursor → Prop
  fails : Cursor → Error → Cursor → Prop

namespace RunRelation

variable {α β : Type}

/-- The result is related to this cursor. -/
def Result (r : RunRelation) (c : Cursor) : EStateM.Result Error Cursor α → Prop
  | .ok _ d => r.leads c d
  | .error x d => r.fails c x d

/-- The runs of the parser are related so. -/
def Holds (r : RunRelation) (p : Parser α) : Prop := ∀ c, r.Result c (p c)

theorem Holds.mono {r s : RunRelation} {p : Parser α} (h : r.Holds p)
    (leads : ∀ {c d}, r.leads c d → s.leads c d)
    (fails : ∀ {c x d}, r.fails c x d → s.fails c x d) : s.Holds p := by
  intro c
  have result := h c
  cases run : p c with
  | ok a d =>
    rw [run] at result
    exact leads result
  | error x d =>
    rw [run] at result
    exact fails result

theorem Holds.bind {r : RunRelation} {p : Parser α} {f : α → Parser β}
    (trans : ∀ {c d e}, r.leads c d → r.leads d e → r.leads c e)
    (trans_fails : ∀ {c d e x}, r.leads c d → r.fails d x e → r.fails c x e) (h : r.Holds p)
    (next : ∀ a, r.Holds (f a)) : r.Holds (p >>= f) := by
  intro c
  have first := h c
  cases run : p c with
  | ok a d =>
    rw [bind_eq_of_ok run]
    rw [run] at first
    have second := next a d
    cases further : f a d with
    | ok b e =>
      rw [further] at second
      exact trans first second
    | error x e =>
      rw [further] at second
      exact trans_fails first second
  | error x d =>
    rw [bind_eq_of_error run]
    rwa [run] at first

/-- The relation is kept by the steps that parsers are made of. -/
structure IsLaw (r : RunRelation) : Prop where
  refl : ∀ c, r.leads c c
  trans : ∀ {c d e}, r.leads c d → r.leads d e → r.leads c e
  trans_fails : ∀ {c d e x}, r.leads c d → r.fails d x e → r.fails c x e
  next : r.Holds (liftM Cursor.next : Parser Token)
  advance : r.Holds (liftM Cursor.advance : Parser Unit)
  takeComments : r.Holds (liftM Cursor.takeComments : Parser (List Token))
  failHere : ∀ {α : Type} (fault : SyntaxFault), r.Holds (failHere fault : Parser α)
  unexpected : ∀ {α : Type}, r.Holds (unexpected : Parser α)
  production : ∀ {α : Type} (production : Production) {body : Parser α}, r.Holds body →
    r.Holds (Parser.production production body)

namespace IsLaw

variable {r : RunRelation}

/-- It is a law of parsers, of each of them alone and whatever its productions are. -/
theorem ofParsers (law : r.IsLaw) : ParserRelation.IsLaw ⟨fun _ p _ => r.Holds p⟩ where
  mono _ h := h
  pure _ c := law.refl c
  bind h next := h.bind law.trans law.trans_fails next
  look _ _ h c := h c.current c.dialect c.ahead.length c
  next := law.next
  advance := law.advance
  takeComments := law.takeComments
  failHere := law.failHere
  unexpected := law.unexpected
  production p _ _ h := law.production p h

/-- The law holds of the parse of a text from its first token on. -/
theorem chunk (law : r.IsLaw) (depth : Nat) : r.Holds (Grammar.chunk depth) :=
  law.ofParsers.chunk depth

end IsLaw
end RunRelation
end LuaFrontend
