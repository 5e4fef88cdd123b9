import LuaFrontend.Proofs.BlockForesight
import LuaFrontend.Proofs.CheckedTargets

set_option autoImplicit false

namespace LuaFrontend

open LuaFrontend.Grammar
open LuaFrontend.Parser
open Outcome (IsInput)

variable {dialect : Dialect} {viable : Prop} {below : Below} {n : Nat}

section Levels

/-- The forms one level up. Blocks may have been read in a stricter way. -/
theorem ForeseesForms.rule (h : ForeseesForms dialect viable below n) {form : Below}
    (ofBlock : Foretells dialect viable (form .block) (levels (n + 1) .block) .block)
    (reads : ReadsForms form) (others : ∀ f, f ≠ .block → form f = Grammar.rule below f) :
    ForeseesForms dialect viable form (n + 1) where
  enough v := Nat.le_succ_of_le (h.enough v)
  block := ofBlock
  operand limit := others (.operand limit) nofun ▸ foretells_operand h limit
  table := others .table nofun ▸ (foretells_table h).foresees.mono
    ⟨fun _ => id, fun _ _ => .inl trivial, fun _ => id, id, fun _ => id⟩
  arguments := others .arguments nofun ▸ foretells_arguments h
  suffixed := others .suffixed nofun ▸ ⟨foresees_suffixed h, fun _ _ _ ending => completes_suffixed h ending⟩
  reads := reads

theorem foreseesForms_levels (depth : Nat) :
    ForeseesForms dialect False (levels depth) depth := by
  induction depth with
  | zero =>
    have none {α : Type} {k : Conduct α} : Foretells dialect False
        (failHere .nestingTooDeep : Parser α) (failHere .nestingTooDeep) k :=
      ⟨foresees_tooDeep, False.elim⟩
    exact ⟨False.elim, none, fun _ => none, foresees_tooDeep, none,
      ⟨fun _ => foresees_tooDeep, fun _ _ _ _ _ run => absurd run not_failHere_ok⟩, reads_levels 0⟩
  | succ depth ih =>
    exact ih.rule (foretells_blockBody ih False.elim) (reads_levels _) fun _ _ => rfl

/-- Where no level is left, nothing is read that would have to be completed. -/
theorem foresees_none {α : Type} {start : Cursor → Prop} {q : Parser α} {k : Conduct α}
    (can : viable) :
    Foresees dialect viable start (failHere .nestingTooDeep : Parser α) q k where
  ok _ _ _ _ _ run := absurd run not_failHere_ok
  error c x e _ _ run := by
    have other (kind : TokenKind) (text : String) : SyntaxFault.nestingTooDeep ≠ .unexpected kind text :=
      nofun
    cases run
    exact ⟨[], c.current, _, rfl, (report_of_other other _ _).symm, fun _ _ => rfl,
      fun v => absurd can v, fun _ deep _ => absurd rfl deep⟩

theorem feeds_nil (n limit : Nat) :
    Feeds dialect (levels (n + 1) (.operand limit)) Conduct.operand where
  proper := by simpa [Conduct.operand] using Word.isProper_nilWord
  goes v rest stops := by
    have read := @readsBack_literal dialect ⟨.nil, "nil", ⟨0, 0⟩⟩
    refine read (n := n) rfl (Nat.zero_le n) rfl (Expression.stopsAt_of_closes _ stops) fun e _ => ?_
    exact goes_grow_end (shrinks_joined? n limit) trivial
      (goes_joined?_end _ _ (by simp [Word.binary?_of_closes stops]))

theorem feeds_empty (n : Nat) : Feeds dialect (levels (n + 1) .block) Conduct.block where
  proper := .nil
  goes v rest stops := by
    have read : Block.ReadsBack dialect [] := goes_block nofun
    exact (read (n := n + 1) trivial (show 1 + 0 ≤ n + 1 by omega) stops).mono fun _ _ => trivial

theorem checksTargets_checking (below : Below) : ChecksTargets (checkingTargets below) := by
  intro c e d run comma
  obtain ⟨found, f, -, checked⟩ := bind_ok.mp run
  cases found with
  | none => cases checked
  | some e =>
    rw [checkTarget, get_bind] at checked
    split at checked
    · exact absurd checked not_unexpected_ok
    · next refused =>
      obtain ⟨same, rfl⟩ := pure_ok.mp checked
      cases same
      rw [Cursor.hasText, comma, Bool.true_and, Bool.not_eq_true', Bool.not_eq_false] at refused
      exact refused

/-- Where a target is refused, it is completed to one that is not. -/
theorem ForeseesForms.checking (h : ForeseesForms dialect viable below n) (can : viable) :
    ForeseesForms dialect viable (checkingTargets below) n := by
  refine ⟨h.enough, h.block, h.operand, h.table, h.arguments, ⟨fun ending => ⟨?_, ?_⟩, ?_⟩,
    reads_checkingTargets h.reads⟩
  · intro c found e legible _ run
    obtain ⟨_, d, first, checked⟩ := bind_ok.mp run
    obtain ⟨rfl, rfl⟩ := checkTarget_ok checked
    exact (h.suffixed.foresees ending).ok legible trivial first
  · intro c x e legible _ run
    cases first : below .suffixed c with
    | error y d =>
      rw [show checkingTargets below .suffixed = below .suffixed >>= checkTarget from rfl,
        bind_eq_of_error first] at run
      cases run
      exact (h.suffixed.foresees ending).error legible trivial first
    | ok found d =>
      rw [show checkingTargets below .suffixed = below .suffixed >>= checkTarget from rfl,
        bind_eq_of_ok first] at run
      obtain ⟨target, rfl, refused⟩ := checkTarget_error run
      obtain ⟨taken, view, some, completes⟩ := h.suffixed.completes ending legible first
      obtain ⟨f, same⟩ := unexpected_eq (Option Expression) (c := d) rfl
      rw [refused] at same
      obtain ⟨same, -⟩ := EStateM.Result.error.inj same
      exact ⟨taken, d.current, _, view, fault_of_report same ▸ same, fun _ none => absurd none some,
        fun exact => absurd can exact, fun _ _ _ => completes⟩
  · intro c e d ending legible run
    obtain ⟨_, f, first, checked⟩ := bind_ok.mp run
    obtain ⟨same, rfl⟩ := checkTarget_ok checked
    exact h.suffixed.completes ending legible (same ▸ first)

/-- The checked forms are foreseen with three levels more, so that there is room for completions. -/
theorem foreseesForms_checkedLevels (can : viable) (depth : Nat) :
    ForeseesForms dialect viable (checkedLevels depth) (depth + 3) := by
  induction depth with
  | zero =>
    exact ⟨fun _ => le_rfl, ⟨foresees_none can, fun _ => feeds_empty 2⟩,
      fun limit => ⟨foresees_none can, fun _ => feeds_nil 2 limit⟩, foresees_none can,
      ⟨foresees_none can, fun _ => feeds_arguments (levels 2)⟩,
      ⟨fun _ => foresees_none can, fun _ _ _ _ _ run => absurd run not_failHere_ok⟩,
      reads_checkedLevels 0⟩
  | succ depth ih =>
    have checked : ForeseesForms dialect viable (checkingTargets (checkedLevels depth)) (depth + 3) :=
      ih.checking can
    exact ih.rule (foretells_blockBody checked fun _ => checksTargets_checking _)
      (reads_checkedLevels _) fun form other => by cases form <;> first | rfl | exact absurd rfl other

end Levels

section Programs

/-- The block that has been read, if the text ends here. -/
def ifAtEnd (block : Block) : Parser Block := do
  if (← current).isEnd then return block else unexpected

/-- A block up to the end of the text. -/
def wholeBlock (part : Parser Block) : Parser Block := part >>= ifAtEnd

/-- Whether a program is read or not does not depend on the comments that it takes. -/
theorem chunkOf_eq (part : Parser Block) : chunkOf part = Parser.production .chunk
    (wholeBlock part >>= fun block => do return ⟨block, (← Cursor.takeComments).map .ofToken⟩) := by
  refine congrArg (Parser.production .chunk) ?_
  rw [wholeBlock, bind_assoc]
  refine congrArg (part >>= ·) (funext fun block => ?_)
  rw [ifAtEnd, bind_assoc]
  refine congrArg (current >>= ·) (funext fun t => ?_)
  split
  · rfl
  · simp only [unexpected, bind_assoc]
    rfl

theorem foretells_ifAtEnd (block : Block) :
    Foretells dialect viable (ifAtEnd block) (ifAtEnd block)
      { after := fun w => w.isSome = false, instead := fun w => w.isSome = false } where
  foresees := by
    have eq (c : Cursor) : ifAtEnd block c =
        (if ¬ c.current.isEnd then unexpected else return block : Parser Block) c := by
      rw [ite_not]
      rfl
    exact foresees_if (fun t => ¬ t.isEnd) (fun _ => unexpected) (fun _ => unexpected) eq eq
      (fun t _ => foresees_unexpected fun _ _ => id) (foresees_pure block id fun _ _ => id)
      fun _ t last => not_not.mpr (by simpa [Word.isSome, Token.isEnd, Token.spelling] using last)
  feeds _ := by
    refine ⟨.nil, fun w rest last => goes_current fun start => ?_⟩
    rw [if_pos (by simpa [Word.isSome, Token.isEnd, Word.token] using last)]
    exact goes_pure trivial

theorem foretells_wholeBlock {p q : Parser Block} (h : Foretells dialect viable p q .block) :
    Foretells dialect viable (wholeBlock p) (wholeBlock q)
      { after := fun w => w.isSome = false, instead := fun w => w.isSome = false } := by
  have closes (w : Word) (last : w.isSome = false) : w.closesBlock := by
    simp_all [Word.isSome, Word.closesBlock, isInBlock, Word.token, Token.isEnd]
  exact (h.bind foretells_ifAtEnd fun w last => closes w last.1).mono ⟨fun w last =>
    ⟨last, .inr ⟨closes w last, last⟩⟩, fun w last => .inr (.inr (.inr ⟨closes w last, last⟩)),
      fun _ => id, False.elim, fun _ => False.elim⟩ rfl

variable {part : Parser Block} {c e : Cursor} {x : Error}

theorem chunkOf_error (run : chunkOf part c = .error x e) :
    ∃ i, wholeBlock part (c.record (.enter .chunk)) = .error x i := by
  rw [chunkOf_eq] at run
  obtain ⟨i, run⟩ := production_error run
  cases read : wholeBlock part (c.record (.enter .chunk)) with
  | error y j =>
    rw [bind_eq_of_error read] at run
    cases run
    exact ⟨i, rfl⟩
  | ok block j =>
    rw [bind_eq_of_ok read] at run
    cases run

theorem error_chunkOf (run : wholeBlock part (c.record (.enter .chunk)) = .error x e) :
    ∃ i, chunkOf part c = .error x i := by
  rw [chunkOf_eq]
  exact error_production (bind_eq_of_error run)

theorem ok_chunkOf {block : Block} (run : wholeBlock part (c.record (.enter .chunk)) = .ok block e) :
    ∃ chunk i, chunkOf part c = .ok chunk i := by
  rw [chunkOf_eq]
  exact ⟨_, _, production_ok.mpr ⟨_, bind_eq_of_ok run, rfl⟩⟩

/-- A program with a fault is refused with it, whatever follows. -/
theorem refuses_of_chunk {depth : Nat} {fault : SyntaxError} (legible : c.IsLegible dialect)
    (run : chunk depth c = .error (.grammatical fault) e) :
    ∃ (taken : List Token) (t : Token) (rest : List Outcome),
      c.upcoming = taken.map .ok ++ .ok t :: rest ∧
      .grammatical fault = fault.fault.report t rest ∧
      Refuses dialect (chunk depth) fault.fault taken t rest := by
  obtain ⟨i, run⟩ := @chunkOf_error (levels depth .block) _ _ _ run
  have law := foretells_wholeBlock (@foreseesForms_levels dialect depth).block
  obtain ⟨taken, t, rest, stuck⟩ := law.foresees.error (legible.record _) trivial run
  refine ⟨taken, t, rest, stuck.upcoming, stuck.same, fun d other faces alike => ?_⟩
  obtain ⟨y, j, again, repeats⟩ := stuck.refuses id (faces.record (.enter .chunk)) alike
  obtain ⟨k, again⟩ := error_chunkOf again
  exact ⟨y, k, again, repeats⟩

/-- What a program has in front of its fault can be completed to a program, if its targets are
checked and it is not nested too deep. -/
theorem completes_of_chunk {depth : Nat} {fault : SyntaxError} (legible : c.IsLegible dialect)
    (run : chunkOf (checkedLevels depth .block) c = .error (.grammatical fault) e)
    (deep : fault.fault ≠ .nestingTooDeep) :
    ∃ (taken : List Token) (t : Token) (rest : List Outcome),
      c.upcoming = taken.map .ok ++ .ok t :: rest ∧
      .grammatical fault = fault.fault.report t rest ∧
      ∃ words, Proper dialect words ∧ ∀ ⦃d tokens⦄ ⦃last : Word⦄, last.isSome = false →
        d.Faces dialect ((taken ++ tokens).map .ok) →
        tokens.map (·.spelling) = words ++ [last] →
          ∃ program g, chunk (depth + 3) d = .ok program g := by
  obtain ⟨i, run⟩ := chunkOf_error run
  have law := foretells_wholeBlock
    (@foreseesForms_checkedLevels dialect True trivial depth).block
  obtain ⟨taken, t, rest, stuck⟩ := law.foresees.error (legible.record _) trivial run
  refine ⟨taken, t, rest, stuck.upcoming, stuck.same, ?_⟩
  by_cases none : taken = []
  · refine ⟨[], .nil, fun d tokens last end' faces spelled => ?_⟩
    have offers := (faces.record (.enter .chunk)).offers
    rw [none, List.nil_append, spelled] at offers
    obtain ⟨block, j, read, -⟩ := (law.feeds trivial).goes last [] end' offers
    exact @ok_chunkOf (levels (depth + 3) .block) _ _ _ read
  · obtain ⟨words, proper, goes⟩ := stuck.completes trivial deep none
    refine ⟨words, proper, fun d tokens last end' faces spelled => ?_⟩
    obtain ⟨block, j, read, -⟩ := goes end' (faces.record (.enter .chunk)) spelled
    exact @ok_chunkOf (levels (depth + 3) .block) _ _ _ read

end Programs

end LuaFrontend
