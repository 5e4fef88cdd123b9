import LuaFrontend.Proofs.LevelsNeeded
import LuaFrontend.Proofs.SameInput
import LuaFrontend.Proofs.TokenizerPartition

set_option autoImplicit false

namespace LuaFrontend

theorem Cursor.hasAtMost_ofSource {dialect : Dialect} {source : String} {c : Cursor}
    (h : ofSource dialect source = .ok c) : c.HasAtMost source.utf8ByteSize := by
  obtain ⟨view, -, -, input, -⟩ := ofSource_view h
  have fewer := List.length_filter_le Outcome.isSignificant (Lexed.ofSource dialect source).items
  have items := Lexed.length_items_le dialect source
  refine ⟨input, ?_⟩
  rw [view, List.length_append, List.length_singleton]
  omega

/-- The same text and dialect, with this limit. -/
def parseWithin (options : Options) (source : String) (depth : Nat) : Except Error Chunk :=
  parse { options with maxDepth := depth } source

/-- The result does not come from reaching the limit. -/
def IsWithinLimit (result : Except Error Chunk) : Prop := ∀ e, result = .error e → ¬ e.IsTooDeep

variable {options : Options} {source : String} {depth deeper : Nat}

/-- What does not reach the limit is the same under every higher limit. -/
theorem parseWithin_eq (h : IsWithinLimit (parseWithin options source depth))
    (le : depth ≤ deeper) :
    parseWithin options source deeper = parseWithin options source depth := by
  unfold parseWithin parse Report.ofSource at h ⊢
  dsimp only at h ⊢
  cases opened : Cursor.ofSource options.toDialect source with
  | error refusal => rfl
  | ok c =>
    rw [opened] at h
    obtain ⟨-, -, -, input, closed⟩ := ofSource_view opened
    have again : c.Repeats Error.IsTooDeep c := .refl input closed
    have depths : (Likeness.ofOutcomes c.upcoming Error.IsTooDeep).SameDepths depth deeper :=
      .inr ⟨le, fun _ _ => rfl⟩
    cases run : Grammar.chunk depth c with
    | ok chunk d =>
      obtain ⟨f, same⟩ := again.chunk_ok depths run
      simp only [run, same]
    | error e d =>
      simp only [run] at h
      obtain ⟨-, f, same⟩ := again.chunk_error depths run (h e rfl)
      simp only [run, same]

/-- Three levels for each byte, and three more, are enough for every text. -/
theorem isWithinLimit_of_enough (enough : 3 * source.utf8ByteSize + 3 ≤ depth) :
    IsWithinLimit (parseWithin options source depth) := by
  intro e failed
  unfold parseWithin parse Report.ofSource at failed
  dsimp only at failed
  split at failed
  · cases failed
    exact id
  · next c opened =>
    split at failed
    · cases failed
    · next x d run =>
      cases failed
      have stays := Grammar.fits_chunk enough (Cursor.hasAtMost_ofSource opened) trivial
      rwa [run] at stays

/-- For every text there is a limit, at most three times its length in bytes and three more, from
which on the result is one and the same; every lower limit is reached. -/
theorem parse_has_threshold (options : Options) (source : String) :
    ∃ threshold ≤ 3 * source.utf8ByteSize + 3,
      (∃ result, (∀ e, result = .error e → ¬ e.IsTooDeep) ∧
        ∀ depth ≥ threshold, parse { options with maxDepth := depth } source = result) ∧
      ∀ depth < threshold,
        ∃ e, parse { options with maxDepth := depth } source = .error e ∧ e.IsTooDeep := by
  classical
  have enough : IsWithinLimit (parseWithin options source (3 * source.utf8ByteSize + 3)) :=
    isWithinLimit_of_enough le_rfl
  have exists' : ∃ depth, IsWithinLimit (parseWithin options source depth) := ⟨_, enough⟩
  have least := Nat.find_spec exists'
  refine ⟨Nat.find exists', Nat.find_min' exists' enough, ⟨_, least, ?_⟩, ?_⟩
  · intro depth above
    exact parseWithin_eq least above
  · intro depth under
    have reached := Nat.find_min exists' under
    simp only [IsWithinLimit, not_forall, not_not] at reached
    obtain ⟨e, failed, deep⟩ := reached
    exact ⟨e, failed, deep⟩

/-- The name in a call takes the fifth level. -/
example : parseWithin .forParser "f(x)" 4 =
    .error (.grammatical ⟨.nestingTooDeep, ⟨2, 1, 0⟩, "x"⟩) := rfl

end LuaFrontend
