import LuaFrontend.Profile
import LuaFrontend.Proofs.EventTrace

set_option autoImplicit false

namespace LuaFrontend

theorem Production.name_injective {p q : Production} (h : p.name = q.name) : p = q := by
  cases p <;> cases q <;> first | rfl | exact absurd h (by decide)

namespace Tally

variable {t rest : Tally} {name other : String}

/-- The names are in order, each once. -/
def IsSorted (t : Tally) : Prop := t.Pairwise (·.1 < ·.1)

theorem count?_cons (key : String) (count : Nat) (rest : Tally) (name : String) :
    count? ((key, count) :: rest) name = if name = key then some count else count? rest name := by
  rw [count?, List.lookup_cons]
  by_cases same : name = key
  · rw [if_pos same, beq_iff_eq.mpr same]
  · rw [if_neg same, beq_eq_false_iff_ne.mpr same]
    rfl

/-- A name in front of all others is not among them. -/
theorem count?_eq_none (h : ∀ entry ∈ t, name < entry.1) : t.count? name = none := by
  rw [count?, List.lookup_eq_none_iff]
  intro entry member
  simpa using String.ne_of_lt (h entry member)

/-- What is in front of a name and of all names of a tally stays in front when the name is added. -/
theorem lt_of_mem_add {low : String} (first : low < name) (h : ∀ entry ∈ t, low < entry.1) :
    ∀ entry ∈ t.add name, low < entry.1 := by
  induction t with
  | nil =>
    intro entry member
    rw [List.mem_singleton.mp member]
    exact first
  | cons head rest ih =>
    obtain ⟨ofHead, ofRest⟩ := List.forall_mem_cons.mp h
    rw [add]
    split
    · exact List.forall_mem_cons.mpr ⟨ofHead, ofRest⟩
    · split
      · exact List.forall_mem_cons.mpr ⟨first, h⟩
      · exact List.forall_mem_cons.mpr ⟨ofHead, ih ofRest⟩

theorem IsSorted.add (h : t.IsSorted) (name : String) : (t.add name).IsSorted := by
  induction t with
  | nil => exact List.pairwise_singleton _ _
  | cons head rest ih =>
    obtain ⟨least, sorted⟩ := List.pairwise_cons.mp h
    rw [Tally.add]
    split
    · exact List.pairwise_cons.mpr ⟨least, sorted⟩
    · next other =>
      split
      · next less =>
        refine List.pairwise_cons.mpr ⟨List.forall_mem_cons.mpr ⟨less, fun entry member => ?_⟩, h⟩
        exact String.lt_trans less (least entry member)
      · next notLess =>
        have greater : head.1 < name := by
          by_contra notGreater
          exact other (String.le_antisymm (String.not_lt.mp notGreater) (String.not_lt.mp notLess))
        exact List.pairwise_cons.mpr ⟨lt_of_mem_add greater least, ih sorted⟩

/-- Adding a name counts one more of it, and changes no other count. -/
theorem count?_add (h : t.IsSorted) (name other : String) :
    (t.add name).count? other =
      if other = name then some ((t.count? name).getD 0 + 1) else t.count? other := by
  induction t with
  | nil => exact count?_cons name 1 [] other
  | cons head rest ih =>
    obtain ⟨key, count⟩ := head
    obtain ⟨least, sorted⟩ := List.pairwise_cons.mp h
    rw [add]
    split
    · next same =>
      subst same
      simp only [count?_cons, if_true, Option.getD_some]
      split <;> rfl
    · next different =>
      split
      · next less =>
        have absent : count? ((key, count) :: rest) name = none :=
          count?_eq_none (List.forall_mem_cons.mpr ⟨less, fun entry member =>
            String.lt_trans less (least entry member)⟩)
        rw [count?_cons name 1, absent]
        rfl
      · rw [count?_cons, ih sorted, count?_cons, count?_cons, if_neg different]
        split
        · next same =>
          subst same
          rw [if_neg fun same => different same.symm]
        · rfl

end Tally

namespace Profile

/-- How often the productions of this name were entered. -/
def count (profile : Profile) (name : String) : Nat := (profile.calls.count? name).getD 0

theorem count_enter {profile : Profile} (sorted : profile.calls.IsSorted) (p q : Production) :
    (profile.enter q.name).count p.name = profile.count p.name + [Event.enter q].count (.enter p) := by
  rw [count, enter, Tally.count?_add sorted]
  by_cases same : p = q
  · subst same
    simp [count]
  · have other : p.name ≠ q.name := fun names => same (Production.name_injective names)
    have notEntered : Event.enter q ≠ .enter p := fun events => same (Event.enter.inj events).symm
    rw [if_neg other, List.count_cons_of_ne notEntered, List.count_nil, Nat.add_zero, count]

/-- Every event adds to the count of its production, and of no other one. -/
theorem count_foldl (events : List Event) {profile : Profile} (sorted : profile.calls.IsSorted)
    (p : Production) : (events.foldl observe profile).count p.name =
      profile.count p.name + events.count (.enter p) := by
  induction events generalizing profile with
  | nil => rfl
  | cons e events ih =>
    rw [List.foldl_cons]
    cases e with
    | token t => exact ih sorted
    | enter q =>
      have kept : (profile.enter q.name).calls.IsSorted := sorted.add q.name
      rw [observe, ih kept, count_enter sorted, Nat.add_assoc, ← List.count_append]
      rfl
    | exit q => exact ih sorted

theorem count_ofEvents (events : List Event) (p : Production) :
    (ofEvents events).count p.name = events.count (.enter p) := by
  have sorted : ({} : Profile).calls.IsSorted := List.Pairwise.nil
  exact (count_foldl events sorted p).trans (Nat.zero_add _)

theorem tokens_foldl (events : List Event) (profile : Profile) :
    (events.foldl observe profile).tokens =
      profile.tokens + (events.filterMap Event.token?).length := by
  induction events generalizing profile with
  | nil => rfl
  | cons e events ih =>
    rw [List.foldl_cons, ih]
    cases e with
    | token t =>
      simp only [observe, token, Event.token?, List.filterMap_cons, List.length_cons]
      omega
    | enter q => rfl
    | exit q => rfl

theorem tokens_ofEvents (events : List Event) :
    (ofEvents events).tokens = (events.filterMap Event.token?).length :=
  (tokens_foldl events {}).trans (Nat.zero_add _)

end Profile

end LuaFrontend
