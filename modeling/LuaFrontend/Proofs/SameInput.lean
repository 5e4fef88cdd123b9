import LuaFrontend.Proofs.ChunkReading
import LuaFrontend.Proofs.StatementLikeness

set_option autoImplicit false

namespace LuaFrontend

namespace Likeness

/-- Each of these tokens and faulty lexemes matches itself. -/
def ofOutcomes (outcomes : List Outcome) (pardoned : Error → Prop) : Likeness :=
  ofWhole (fun t u => t = u ∧ .ok t ∈ outcomes) (fun e f => e = f ∧ .error e ∈ outcomes) id id
    pardoned (fun ⟨same, _⟩ => congrArg Token.kind same.symm)
    (fun ⟨same, _⟩ => congrArg Token.text same.symm) fun ⟨same, _⟩ => congrArg Token.span same

variable {outcomes : List Outcome} {pardoned : Error → Prop}

theorem matches_ofOutcomes {some : List Outcome} (h : ∀ o ∈ some, o ∈ outcomes) :
    (ofOutcomes outcomes pardoned).Matches some some := by
  induction some with
  | nil => exact .nil
  | cons o some ih =>
    refine .cons ?_ (ih fun p inside => h p (List.mem_cons_of_mem o inside))
    have inside := h o List.mem_cons_self
    cases o with
    | ok t => exact .token ⟨rfl, inside⟩
    | error e => exact .error ⟨rfl, inside⟩

end Likeness

/-- An error is about something that is before the cursor: a faulty lexeme, or a token where the
grammar finds the fault. -/
def Error.IsFrom (outcomes : List Outcome) : Error → Prop
  | .lexical e => .error e ∈ outcomes
  | .grammatical e => ∃ t, .ok t ∈ outcomes ∧ e.position = t.start

theorem Error.IsFrom.mono {outcomes more : List Outcome} {e : Error} (h : e.IsFrom outcomes)
    (sub : ∀ o ∈ outcomes, o ∈ more) : e.IsFrom more := by
  cases e with
  | lexical e => exact sub _ h
  | grammatical e =>
    obtain ⟨t, inside, same⟩ := h
    exact ⟨t, sub _ inside, same⟩

/-- The same is before both cursors, and they agree on jumps as far as it matters. -/
structure Cursor.Repeats (pardoned : Error → Prop) (c d : Cursor) : Prop where
  upcoming : d.upcoming = c.upcoming
  remarks : d.remarks = c.remarks
  jumps : (Likeness.ofOutcomes c.upcoming pardoned).SameJumps c.dialect d.dialect
  input : Outcome.IsInput c.upcoming
  closed : c.IsClosed
  otherClosed : d.IsClosed

namespace Cursor.Repeats

variable {pardoned : Error → Prop} {c d e : Cursor} {depth depth' : Nat}

theorem refl {c : Cursor} (input : Outcome.IsInput c.upcoming) (closed : c.IsClosed) :
    c.Repeats pardoned c :=
  ⟨rfl, rfl, .inl rfl, input, closed, closed⟩

theorem cursors (h : c.Repeats pardoned d) :
    (Likeness.ofOutcomes c.upcoming pardoned).Cursors c d := by
  refine ⟨?_, h.jumps, h.input, h.upcoming ▸ h.input⟩
  rw [h.upcoming]
  exact Likeness.matches_ofOutcomes fun _ => id

theorem results (h : c.Repeats pardoned d)
    (depths : (Likeness.ofOutcomes c.upcoming pardoned).SameDepths depth depth') :
    (Likeness.ofOutcomes c.upcoming pardoned).Results
      (fun a b => Statement.mapSpansAll id a.block = Statement.mapSpansAll id b.block)
      (Grammar.chunk depth c) (Grammar.chunk depth' d) :=
  Likeness.runs_chunk depths (fun _ _ => id) h.cursors h.cursors.sees

/-- What is a program once is the same program again. -/
theorem chunk_ok (h : c.Repeats pardoned d)
    (depths : (Likeness.ofOutcomes c.upcoming pardoned).SameDepths depth depth')
    {chunk : Chunk} (run : Grammar.chunk depth c = .ok chunk e) :
    ∃ f, Grammar.chunk depth' d = .ok chunk f := by
  have results := h.results depths
  rw [run] at results
  obtain ⟨other, f, again, same, -⟩ := results.of_ok
  rw [Statement.mapSpansAll_id, Statement.mapSpansAll_id] at same
  obtain ⟨-, -, -, -, -, comments⟩ := Grammar.chunk_ok h.input h.closed run
  obtain ⟨-, -, -, -, -, others⟩ := Grammar.chunk_ok (h.upcoming ▸ h.input) h.otherClosed again
  rw [h.remarks, ← comments] at others
  obtain ⟨block, list⟩ := chunk
  obtain ⟨block', list'⟩ := other
  cases same
  cases others
  exact ⟨f, again⟩

/-- An error that is not pardoned is met again. -/
theorem chunk_error (h : c.Repeats pardoned d)
    (depths : (Likeness.ofOutcomes c.upcoming pardoned).SameDepths depth depth')
    {x : Error} (run : Grammar.chunk depth c = .error x e) (strict : ¬ pardoned x) :
    x.IsFrom c.upcoming ∧ ∃ f, Grammar.chunk depth' d = .error x f := by
  have results := h.results depths
  rw [run] at results
  cases again : Grammar.chunk depth' d with
  | ok other f =>
    rw [again] at results
    exact absurd results strict
  | error y f =>
    rw [again] at results
    cases results.resolve_left strict with
    | lexical same =>
      obtain ⟨rfl, inside⟩ := same
      exact ⟨inside, f, rfl⟩
    | grammatical fault near same =>
      obtain ⟨rfl, inside⟩ := same
      exact ⟨⟨_, inside, rfl⟩, f, rfl⟩

end Cursor.Repeats
end LuaFrontend
