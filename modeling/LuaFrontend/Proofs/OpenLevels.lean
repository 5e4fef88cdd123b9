import LuaFrontend.Proofs.ParserScript

set_option autoImplicit false

namespace LuaFrontend

open LuaFrontend.Parser
open LuaFrontend.Grammar

/-- The cursor with so many levels open. -/
def Cursor.withDepth (c : Cursor) (n : Nat) : Cursor := { c with depth := n }

/-- A run that is left with so many levels open. -/
def resultWithDepth {α ε : Type} (n : Nat) :
    EStateM.Result ε Cursor α → EStateM.Result ε Cursor α
  | .ok a c => .ok a (c.withDepth n)
  | .error e c => .error e (c.withDepth n)

/-- With so many levels open, the first action does what the second one does, and goes back to that
count. The second one does not touch the count. -/
structure CountsAs {α ε : Type} (p q : EStateM ε Cursor α) (c : Cursor) (n : Nat) : Prop where
  same : p (c.withDepth n) = resultWithDepth n (q c)
  kept : (endOf (q c)).depth = c.depth

section Actions

variable {α β ε : Type} {c : Cursor} {n : Nat}

namespace CountsAs

theorem pure (a : α) : CountsAs (ε := ε) (pure a) (pure a) c n := ⟨rfl, rfl⟩

theorem bind {p q : EStateM ε Cursor α} {f g : α → EStateM ε Cursor β} (h : CountsAs p q c n)
    (next : ∀ a d, CountsAs (f a) (g a) d n) : CountsAs (p >>= f) (q >>= g) c n := by
  obtain ⟨same, kept⟩ := h
  cases run : q c with
  | ok a d =>
    rw [run] at same kept
    have whole : (q >>= g) c = g a d := by simp [Bind.bind, EStateM.bind, run]
    have counted : (p >>= f) (c.withDepth n) = f a (d.withDepth n) := by
      simp [Bind.bind, EStateM.bind, same, resultWithDepth]
    refine ⟨?_, ?_⟩
    · rw [whole, counted]
      exact (next a d).same
    · rw [whole]
      exact (next a d).kept.trans kept
  | error e d =>
    rw [run] at same kept
    have whole : (q >>= g) c = .error e d := by simp [Bind.bind, EStateM.bind, run]
    have counted : (p >>= f) (c.withDepth n) = .error e (d.withDepth n) := by
      simp [Bind.bind, EStateM.bind, same, resultWithDepth]
    refine ⟨?_, ?_⟩
    · rw [whole, counted]
      rfl
    · rw [whole]
      exact kept

theorem keep (c : Cursor) (n : Nat) (t : Token) :
    (c.withDepth n).keep t = (c.keep t).withDepth n ∧ (c.keep t).depth = c.depth := by
  unfold Cursor.keep
  constructor <;> split <;> rfl

theorem readFrom (wanted : Nat) (pending : List (Except LexError Token)) (c : Cursor) :
    CountsAs (Cursor.readFrom wanted pending) (Cursor.readFrom wanted pending) c n := by
  induction pending generalizing c with
  | nil => exact ⟨rfl, rfl⟩
  | cons o more ih =>
    by_cases enough : wanted ≤ c.ready.length
    · have also : wanted ≤ (c.withDepth n).ready.length := enough
      cases o <;> exact ⟨by rw [Cursor.readFrom, Cursor.readFrom, if_pos enough, if_pos also]; rfl,
        by rw [Cursor.readFrom, if_pos enough]; rfl⟩
    · have also : ¬ wanted ≤ (c.withDepth n).ready.length := enough
      cases o with
      | error e =>
        exact ⟨by rw [Cursor.readFrom, Cursor.readFrom, if_neg enough, if_neg also]; rfl,
          by rw [Cursor.readFrom, if_neg enough]; rfl⟩
      | ok t =>
        obtain ⟨moves, stays⟩ := keep c n t
        obtain ⟨same, kept⟩ := ih (c.keep t)
        refine ⟨?_, ?_⟩
        · rw [Cursor.readFrom, Cursor.readFrom, if_neg enough, if_neg also, moves, same]
        · rw [Cursor.readFrom, if_neg enough, kept, stays]

theorem read (wanted : Nat) : CountsAs (Cursor.read wanted) (Cursor.read wanted) c n := by
  obtain ⟨same, kept⟩ := readFrom (n := n) wanted c.pending c
  exact ⟨same, kept⟩

theorem next : CountsAs Cursor.next Cursor.next c n :=
  bind (read 1) fun _ _ => ⟨rfl, rfl⟩

theorem advance : CountsAs Cursor.advance Cursor.advance c n := by
  refine bind (read 1) fun _ d => ?_
  have moves : (d.withDepth n).step = d.step.withDepth n ∧ d.step.depth = d.depth := by
    rcases d with ⟨_, _, _, _ | ⟨t, more⟩, _, _, _, _⟩
    · exact ⟨rfl, rfl⟩
    · exact ⟨rfl, rfl⟩
  exact ⟨congrArg (EStateM.Result.ok ()) moves.1, moves.2⟩

theorem act {action other : Cursor.Action α} (h : CountsAs action other c n) :
    CountsAs (Parser.act action) (Parser.act other) c n := by
  obtain ⟨same, kept⟩ := h
  constructor
  all_goals
    simp only [Parser.act, same]
    cases run : other c <;> rw [run] at kept
  · rfl
  · rfl
  · exact kept
  · exact kept

theorem production (p : Production) {body other : Parser α}
    (h : CountsAs body other (c.record (.enter p)) n) :
    CountsAs (Parser.production p body) (Parser.production p other) c n := by
  obtain ⟨same, kept⟩ := h
  have entered : (c.withDepth n).record (.enter p) = (c.record (.enter p)).withDepth n := rfl
  constructor
  all_goals
    simp only [Parser.production, entered, same]
    cases run : other (c.record (.enter p)) <;> rw [run] at kept
  · rfl
  · rfl
  · exact kept
  · exact kept

end CountsAs

end Actions

/-- The parsers do the same where so many levels are left, the first one with a counter. -/
def ParserRelation.counts (limit left : Nat) : ParserRelation where
  Relates _ p q := ∀ (c : Cursor) (n : Nat), n + left = limit → CountsAs p q c n

variable {limit left : Nat}

/-- A level that is entered with room is left again. -/
theorem CountsAs.nested {α : Type} {body other : Parser α} {c : Cursor} {n : Nat}
    (h : CountsAs body other c (n + 1)) (room : n < limit) :
    CountsAs (Parser.nested limit body) other c n := by
  obtain ⟨same, kept⟩ := h
  refine ⟨?_, kept⟩
  have inner : body { c.withDepth n with depth := (c.withDepth n).depth + 1 } =
      resultWithDepth (n + 1) (other c) := same
  rw [Parser.nested, if_neg (show ¬ limit ≤ (c.withDepth n).depth from Nat.not_le_of_lt room),
    inner]
  cases other c <;> rfl

section Counted

variable {c : Cursor} {form : Form}

end Counted

end LuaFrontend
