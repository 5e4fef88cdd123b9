import LuaFrontend.Proofs.ParserLaw
import Mathlib.Tactic.Choose

set_option autoImplicit false

/-
Parsers step by step. A script says what is done at a cursor: it looks at the current token, makes a
move, and goes on with what came of that, which may be an error. Every parser of the grammar runs
like some script, so that there are states between its steps; in each of them at most one token
behind the current one has been read.
-/

namespace LuaFrontend

open LuaFrontend.Parser

/-- What can be done at a cursor in one step. -/
inductive Move : Type → Type where
  | next : Move Token
  | advance : Move Unit
  | takeComments : Move (List Token)
  | record (e : Event) : Move Unit

/-- What is done from a cursor on. Of the cursor the current token is seen, the dialect, and how much
is still to come. -/
inductive Script (α : Type) : Type 1 where
  | done (result : Except Error α)
  | look (go : Token → Dialect → Nat → Script α)
  | move {β : Type} (m : Move β) (go : Except LexError β → Script α)

section Results

variable {α ε : Type}

/-- Where a run has left the cursor. -/
def endOf : EStateM.Result ε Cursor α → Cursor
  | .ok _ c => c
  | .error _ c => c

/-- What came of a run. -/
def outcomeOf : EStateM.Result ε Cursor α → Except ε α
  | .ok a _ => .ok a
  | .error e _ => .error e

end Results

namespace Cursor

variable {c : Cursor}

theorem length_ready_keep (t : Token) : (c.keep t).ready.length ≤ c.ready.length + 1 := by
  unfold keep
  split <;> simp [record]

/-- No more tokens are made ready than are wanted. -/
theorem length_ready_readFrom {wanted : Nat} (pending : List (Except LexError Token))
    (h : c.ready.length ≤ wanted) : (endOf (readFrom wanted pending c)).ready.length ≤ wanted := by
  induction pending generalizing c with
  | nil => exact h
  | cons o more ih =>
    cases o with
    | ok t =>
      rw [readFrom]
      split
      · exact h
      · have kept := c.length_ready_keep t
        exact ih (by omega)
    | error e =>
      rw [readFrom]
      split <;> exact h

theorem length_ready_step : c.step.ready.length ≤ c.ready.length := by
  unfold step
  split
  · exact le_rfl
  · next more => rw [more, List.length_cons]; exact Nat.le_succ _

end Cursor

namespace Move

variable {α : Type}

def action : {α : Type} → Move α → Cursor.Action α
  | _, next => Cursor.next
  | _, advance => Cursor.advance
  | _, takeComments => Cursor.takeComments
  | _, record e => modify (·.record e)

/-- A move makes at most one token ready. -/
theorem length_ready {c : Cursor} (m : Move α) (h : c.ready.length ≤ 1) :
    (endOf (m.action c)).ready.length ≤ 1 := by
  have read := Cursor.length_ready_readFrom c.pending h
  cases m with
  | next =>
    simp only [action, Cursor.next, Cursor.tokenAhead, bind, EStateM.bind, Cursor.read]
    cases run : Cursor.readFrom 1 c.pending c <;> rw [run] at read <;> exact read
  | advance =>
    simp only [action, Cursor.advance, bind, EStateM.bind, Cursor.read]
    cases run : Cursor.readFrom 1 c.pending c <;> rw [run] at read
    · exact Cursor.length_ready_step.trans read
    · exact read
  | takeComments => exact h
  | record e => exact h

end Move

namespace Script

variable {α β : Type}

def run : Script α → Parser α
  | done (.ok a), c => .ok a c
  | done (.error x), c => .error x c
  | look go, c => (go c.current c.dialect c.ahead.length).run c
  | move m go, c => (go (outcomeOf (m.action c))).run (endOf (m.action c))

/-- The cursors on the way, from the first one to where the run ends. -/
def states : Script α → Cursor → List Cursor
  | done _, c => [c]
  | look go, c => (go c.current c.dialect c.ahead.length).states c
  | move m go, c => c :: (go (outcomeOf (m.action c))).states (endOf (m.action c))

/-- Goes on with what came of the first script, also if that is an error. -/
def andThen : Script α → (Except Error α → Script β) → Script β
  | done result, next => next result
  | look go, next => look fun t dialect left => (go t dialect left).andThen next
  | move m go, next => move m fun result => (go result).andThen next

theorem run_andThen (s : Script α) (next : Except Error α → Script β) (c : Cursor) :
    (s.andThen next).run c = (next (outcomeOf (s.run c))).run (endOf (s.run c)) := by
  induction s generalizing c with
  | done result => cases result <;> rfl
  | look go ih => exact ih _ _ _ c
  | move m go ih => exact ih _ _

theorem length_ready (s : Script α) {c : Cursor} (h : c.ready.length ≤ 1) :
    ∀ d ∈ s.states c, d.ready.length ≤ 1 := by
  induction s generalizing c with
  | done result => simpa [states] using h
  | look go ih => exact ih _ _ _ h
  | move m go ih => exact List.forall_mem_cons.mpr ⟨h, ih _ (m.length_ready h)⟩

end Script

/-- The parser does step by step what some script says. -/
def IsScripted {α : Type} (p : Parser α) : Prop := ∃ s : Script α, s.run = p

namespace IsScripted

variable {α β : Type}

theorem fail (x : Error) : IsScripted (throw x : Parser α) := ⟨.done (.error x), rfl⟩

theorem pure (a : α) : IsScripted (pure a : Parser α) := ⟨.done (.ok a), rfl⟩

theorem bind {p : Parser α} {f : α → Parser β} (h : IsScripted p) (next : ∀ a, IsScripted (f a)) :
    IsScripted (p >>= f) := by
  obtain ⟨s, rfl⟩ := h
  choose t same using next
  refine ⟨s.andThen fun | .ok a => t a | .error x => .done (.error x), funext fun c => ?_⟩
  rw [Script.run_andThen]
  cases run : s.run c with
  | ok a d => rw [bind_eq_of_ok run, ← same]; rfl
  | error x d => rw [bind_eq_of_error run]; rfl

theorem look (f : Token → Dialect → Nat → Parser α)
    (h : ∀ t dialect left, IsScripted (f t dialect left)) :
    IsScripted (get >>= fun c => f c.current c.dialect c.ahead.length) := by
  choose s same using h
  refine ⟨.look s, funext fun c => ?_⟩
  rw [get_bind, ← same]
  rfl

theorem move (m : Move α) : IsScripted (liftM m.action : Parser α) := by
  refine ⟨.move m fun | .ok a => .done (.ok a) | .error e => .done (.error (.lexical e)),
    funext fun c => ?_⟩
  change _ = act m.action c
  simp only [Script.run, act]
  cases m.action c <;> rfl

theorem production (p : Production) {body : Parser α} (h : IsScripted body) :
    IsScripted (Parser.production p body) := by
  obtain ⟨s, rfl⟩ := h
  refine ⟨.move (.record (.enter p)) fun _ => s.andThen fun result =>
    .move (.record (.exit p)) fun _ => .done result, funext fun c => ?_⟩
  rw [Script.run, Script.run_andThen, Parser.production]
  change (Script.done (outcomeOf (s.run (c.record (.enter p))))).run
    ((endOf (s.run (c.record (.enter p)))).record (.exit p)) = _
  cases s.run (c.record (.enter p)) <;> rfl

theorem failHere (fault : SyntaxFault) : IsScripted (failHere fault : Parser α) :=
  look (fun t _ _ => throw (Error.grammatical ⟨fault, t.start, t.near⟩)) fun _ _ _ => fail _

theorem unexpected : IsScripted (unexpected : Parser α) :=
  look (fun t _ _ => (liftM Cursor.next : Parser Token) >>= fun following =>
      throw (Error.grammatical ⟨.unexpected t.kind t.text, t.start, following.near⟩))
    fun _ _ _ => bind (move .next) fun _ => fail _

/-- To be scripted is a law of parsers, so that the grammar is. -/
theorem isLaw : ParserRelation.IsLaw ⟨fun _ p _ => IsScripted p⟩ where
  mono _ h := h
  pure := pure
  bind := bind
  look f _ := look f
  next := move .next
  advance := move .advance
  takeComments := move .takeComments
  failHere _ := failHere _
  unexpected := unexpected
  production p _ _ := production p

end IsScripted

/-- Behind the first token nothing is ready, and no level is open. -/
theorem Cursor.fresh_of_opening {dialect : Dialect} {final : Token} {aside : List Token}
    {items : List (Except LexError Token)} {c : Cursor}
    (h : opening dialect final aside items = .ok c) : c.ready = [] ∧ c.depth = 0 := by
  fun_induction opening dialect final aside items with
  | case1 => cases h; exact ⟨rfl, rfl⟩
  | case2 _ _ _ _ ih => exact ih h
  | case3 => cases h; exact ⟨rfl, rfl⟩
  | case4 => cases h

/-- However a program is read, there is no state on the way in which more than one token behind the
current one is buffered. -/
theorem exists_script_of_chunk (depth : Nat) :
    ∃ script : Script Chunk, script.run = Grammar.chunk depth ∧
      ∀ {dialect source c}, Cursor.ofSource dialect source = .ok c →
        ∀ d ∈ script.states c, d.buffered ≤ d.index + 2 := by
  obtain ⟨script, same⟩ := IsScripted.isLaw.chunk depth
  refine ⟨script, same, fun opened d member => ?_⟩
  obtain ⟨ready, -⟩ := Cursor.fresh_of_opening opened
  have few := script.length_ready (by rw [ready]; exact Nat.zero_le 1) d member
  rw [Cursor.buffered, Cursor.index]
  omega

end LuaFrontend
