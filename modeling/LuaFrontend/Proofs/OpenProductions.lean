import LuaFrontend.Proofs.EventTrace

set_option autoImplicit false

namespace LuaFrontend

open LuaFrontend.Parser

namespace Event

/-- At no point of the events are more productions open than so many beyond those open before. -/
def OpensAtMost (k : Nat) (events : List Event) : Prop :=
  ∀ opened front, front <+: events →
    ∃ inner, openAfter opened front = some inner ∧ inner.length ≤ opened.length + k

variable {k l : Nat} {first second events : List Event}

theorem OpensAtMost.mono (h : OpensAtMost k events) (le : k ≤ l) : OpensAtMost l events := by
  intro opened front begins
  obtain ⟨inner, same, few⟩ := h opened front begins
  exact ⟨inner, same, few.trans (Nat.add_le_add_left le _)⟩

theorem OpensAtMost.tokens (tokens : List Token) : OpensAtMost k (tokens.map token) := by
  intro opened front begins
  obtain ⟨some, -, rfl⟩ : ∃ some, some <+: tokens ∧ some.map token = front := by
    obtain ⟨rest, split⟩ := begins
    obtain ⟨some, others, rfl, same, -⟩ := List.map_eq_append_iff.mp split.symm
    exact ⟨some, List.prefix_append _ _, same⟩
  exact ⟨opened, AreBalanced.tokens some opened, Nat.le_add_right _ _⟩

theorem OpensAtMost.append (h : OpensAtMost k first) (balanced : AreBalanced first)
    (g : OpensAtMost k second) : OpensAtMost k (first ++ second) := by
  rintro opened front ⟨rest, split⟩
  rcases List.append_eq_append_iff.mp split with ⟨more, rfl, -⟩ | ⟨more, rfl, rfl⟩
  · exact h opened front (List.prefix_append _ _)
  · rw [openAfter_append, balanced opened]
    exact g opened more (List.prefix_append _ _)

/-- Inside a production one more is open. -/
theorem OpensAtMost.production (h : OpensAtMost k events) (balanced : AreBalanced events)
    (p : Production) : OpensAtMost (k + 1) (enter p :: (events ++ [exit p])) := by
  intro opened front begins
  cases front with
  | nil => exact ⟨opened, rfl, Nat.le_add_right _ _⟩
  | cons e front =>
    obtain ⟨rfl, within⟩ := List.cons_prefix_cons.mp begins
    change ∃ inner, openAfter (p :: opened) front = some inner ∧ _
    rcases List.prefix_concat_iff.mp within with rfl | inside
    · refine ⟨opened, ?_, Nat.le_add_right _ _⟩
      rw [openAfter_append, balanced (p :: opened)]
      simp [openAfter, open?]
    · obtain ⟨inner, same, few⟩ := h (p :: opened) front inside
      refine ⟨inner, same, ?_⟩
      rw [List.length_cons] at few
      omega

end Event

namespace RunRelation

/-- Between the two cursors at most so many productions are open inside one another. -/
def nests (k : Nat) : RunRelation where
  leads c d := ∃ events, Event.OpensAtMost k events ∧ c.Reports events d
  fails c _ d := ∃ events, Event.OpensAtMost k events ∧ c.ReportsError events d

theorem nests_of_readsTokens {α : Type} {k : Nat} {p : Parser α} (h : readsTokens.Holds p) :
    (nests k).Holds p :=
  h.mono (fun ⟨tokens, read⟩ => ⟨_, .tokens tokens, read⟩)
    fun ⟨tokens, read⟩ => ⟨_, .tokens tokens, read⟩

theorem nests_production {α : Type} {k : Nat} {body : Parser α} (h : (nests k).Holds body)
    (p : Production) : (nests (k + 1)).Holds (production p body) := by
  intro c
  have inside := h (c.record (.enter p))
  unfold Parser.production
  cases run : body (c.record (.enter p)) with
  | ok a d =>
    rw [run] at inside
    obtain ⟨events, few, read⟩ := inside
    exact ⟨_, few.production read.balanced p, read.production p⟩
  | error x d =>
    rw [run] at inside
    obtain ⟨events, few, read⟩ := inside
    exact ⟨_, few.production read.balanced p, read.production p⟩

theorem isLaw_nests : ParserRelation.IsLaw ⟨fun k p _ => (nests k).Holds p⟩ where
  mono le h := h.mono (fun ⟨events, few, read⟩ => ⟨events, few.mono le, read⟩)
    fun ⟨events, few, read⟩ => ⟨events, few.mono le, read⟩
  pure _ c := ⟨[], .tokens [], .refl c⟩
  bind h next := by
    refine h.bind ?_ ?_ next
    · rintro c d e ⟨first, few, read⟩ ⟨second, alsoFew, further⟩
      exact ⟨first ++ second, few.append read.balanced alsoFew, read.trans further⟩
    · rintro c d e x ⟨first, few, read⟩ ⟨second, alsoFew, further⟩
      exact ⟨first ++ second, few.append read.balanced alsoFew, read.trans_error further⟩
  look _ _ h c := h c.current c.dialect c.ahead.length c
  next := nests_of_readsTokens readsTokens_next
  advance := nests_of_readsTokens readsTokens_advance
  takeComments := nests_of_readsTokens readsTokens_takeComments
  failHere fault := nests_of_readsTokens (readsTokens_failHere fault)
  unexpected := nests_of_readsTokens readsTokens_unexpected
  production p _ _ h := nests_production h p

end RunRelation

/-- The events of a parse are those before its first token, which are tokens, and those of a run. -/
theorem Report.opensAtMost (options : Options) (source : String) :
    Event.OpensAtMost (4 * options.maxDepth + 1) (ofSource options source).events := by
  unfold Report.ofSource
  cases opened : Cursor.ofSource options.toDialect source with
  | error refusal =>
    obtain ⟨read, journal, -⟩ := Cursor.journal_of_opening_error opened
    have events : refusal.journal.reverse = read.map .token := by simp [journal]
    simp only [events]
    exact .tokens read
  | ok c =>
    obtain ⟨read, journal, -⟩ := Cursor.journal_of_opening opened
    have before : c.journal.reverse = read.map .token := by simp [journal]
    have behind {events : List Event} {d : Cursor}
        (few : Event.OpensAtMost (4 * options.maxDepth + 1) events)
        (journal : d.journal = events.reverse ++ c.journal) :
        Event.OpensAtMost (4 * options.maxDepth + 1) d.journal.reverse := by
      have whole : d.journal.reverse = read.map .token ++ events := by simp [journal, before]
      rw [whole]
      exact Event.OpensAtMost.append (.tokens read) (.tokens read) few
    have nests := RunRelation.isLaw_nests.chunk options.maxDepth c
    cases run : Grammar.chunk options.maxDepth c with
    | ok chunk d =>
      rw [run] at nests
      obtain ⟨events, few, read⟩ := nests
      simp only [run]
      exact behind few read.journal
    | error e d =>
      rw [run] at nests
      obtain ⟨events, few, read⟩ := nests
      simp only [run]
      exact behind few read.journal

/-- However long a text is and whatever becomes of its parse, at no point of it are more productions
open than one, for the program, and four for each level of nesting that is allowed. -/
theorem open_productions_are_bounded (options : Options) (source : String) (number : Nat) :
    ∃ opened, Event.openAfter [] ((Report.ofSource options source).events.take number) =
        some opened ∧ opened.length ≤ 1 + 4 * options.maxDepth := by
  obtain ⟨opened, same, few⟩ := Report.opensAtMost options source [] _
    (List.take_prefix number (Report.ofSource options source).events)
  rw [List.length_nil] at few
  exact ⟨opened, same, by omega⟩

/-- Inside the body of a function the bound is reached. -/
example : (Event.openAfter [] ((Report.ofSource { Options.forParser with maxDepth := 1 }
    "local function f()").events.take 11)).map List.length = some 5 := by decide +kernel

end LuaFrontend
