import LuaFrontend.Proofs.CursorView
import LuaFrontend.Proofs.ParserRuns
import LuaFrontend.Proofs.WrittenForm

set_option autoImplicit false

namespace LuaFrontend

open Outcome (IsInput)

/-- Tokens of the language lead from one cursor to the other, where the end is still to come. -/
def Cursor.Reads (c : Cursor) (l : Language Token) (d : Cursor) : Prop :=
  (∃ tokens ∈ l, c.Passes tokens d) ∧ IsInput d.upcoming

namespace Cursor.Reads

variable {c d e : Cursor} {l m : Language Token}

theorem input (h : c.Reads l d) : IsInput d.upcoming := h.2

theorem refl (h : IsInput c.upcoming) : c.Reads 1 c := ⟨⟨[], rfl, .refl c⟩, h⟩

theorem of_passes {tokens : List Token} (h : c.Passes tokens d) (input : IsInput c.upcoming)
    (member : tokens ∈ l) : c.Reads l d :=
  ⟨⟨tokens, member, h⟩, h.input input⟩

/-- Looking ahead reads nothing. -/
theorem behind (passes : c.Passes [] d) (h : d.Reads l e) : c.Reads l e := by
  obtain ⟨⟨tokens, member, further⟩, input⟩ := h
  exact ⟨⟨tokens, member, passes.trans further⟩, input⟩

theorem mono (h : c.Reads l d) (sub : ∀ tokens ∈ l, tokens ∈ m) : c.Reads m d := by
  obtain ⟨⟨tokens, member, passes⟩, input⟩ := h
  exact ⟨⟨tokens, sub tokens member, passes⟩, input⟩

theorem mul (h : c.Reads l d) (g : d.Reads m e) : c.Reads (l * m) e := by
  obtain ⟨⟨first, inL, passes⟩, -⟩ := h
  obtain ⟨⟨second, inM, further⟩, input⟩ := g
  exact ⟨⟨first ++ second, Language.append_mem_mul inL inM, passes.trans further⟩, input⟩

theorem left (h : c.Reads l d) : c.Reads (l + m) d :=
  h.mono fun _ member => .inl member

theorem right (h : c.Reads m d) : c.Reads (l + m) d :=
  h.mono fun _ member => .inr member

/-- Where something has been read, less is left. -/
theorem length_lt (h : c.Reads l d) (more : [] ∉ l) : d.upcoming.length < c.upcoming.length := by
  obtain ⟨⟨tokens, member, passes⟩, -⟩ := h
  have some : tokens ≠ [] := fun none => more (none ▸ member)
  rw [passes.upcoming, List.length_append, List.length_map]
  have := List.length_pos_of_ne_nil some
  omega

theorem of_record {event : Event} (h : (c.record event).Reads l d) : c.Reads l d := by
  obtain ⟨⟨tokens, member, passes⟩, input⟩ := h
  exact ⟨⟨tokens, member, passes.upcoming, passes.remarks, passes.dialect, passes.pending⟩, input⟩

theorem record {event : Event} (h : c.Reads l d) : c.Reads l (d.record event) := by
  obtain ⟨⟨tokens, member, passes⟩, input⟩ := h
  exact ⟨⟨tokens, member, passes.upcoming, passes.remarks, passes.dialect, passes.pending⟩, input⟩

end Cursor.Reads

/-- What a parser gives has been read. -/
def Parser.Reads {α : Type} (p : Parser α) (l : α → Language Token) : Prop :=
  ∀ ⦃c a d⦄, IsInput c.upcoming → p c = .ok a d → c.Reads (l a) d

/-- What a parser gives has been read, if it began at such a token. -/
def Parser.ReadsFrom {α : Type} (start : Token → Prop) (p : Parser α) (l : α → Language Token) :
    Prop :=
  ∀ ⦃c a d⦄, IsInput c.upcoming → start c.current → p c = .ok a d → c.Reads (l a) d

namespace Parser

variable {α : Type} {c d : Cursor}

theorem readsFrom_production {production : Production} {start : Token → Prop} {p : Parser α}
    {l : α → Language Token} (h : p.ReadsFrom start l) :
    (Parser.production production p).ReadsFrom start l := by
  intro c a d input begins run
  obtain ⟨e, body, rfl⟩ := production_ok.mp run
  exact (h (c := c.record _) input begins body).of_record.record

theorem reads_production {production : Production} {p : Parser α} {l : α → Language Token}
    (h : p.Reads l) : (Parser.production production p).Reads l := by
  intro c a d input run
  obtain ⟨e, body, rfl⟩ := production_ok.mp run
  exact (h (c := c.record _) input body).of_record.record

theorem reads_of_advance {l : Language Token} (input : IsInput c.upcoming)
    (more : c.current.isEnd = false) (member : [c.current] ∈ l)
    (run : (liftM Cursor.advance : Parser Unit) c = .ok () d) : c.Reads l d :=
  .of_passes (Cursor.passes_of_advance (liftM_ok.mp run) input more) input member

theorem isEnd_of_accepts {text : String} {t : Token} (h : (Pattern.text text).accepts t) :
    t.isEnd = false := by
  by_contra last
  simp only [Bool.not_eq_false, Token.isEnd, beq_iff_eq] at last
  simp [Pattern.accepts, last, Pattern.isFreelySpelled] at h

theorem consume_ok {pattern : Pattern} {taken : Bool}
    (run : Cursor.consume pattern c = .ok taken d) :
    if taken then pattern.accepts c.current ∧ Cursor.advance c = .ok () d else d = c := by
  rw [Cursor.consume, get_bind] at run
  split at run
  · next accepted =>
    obtain ⟨_, e, moved, result⟩ := bind_ok.mp run
    obtain ⟨rfl, rfl⟩ := pure_ok.mp result
    exact ⟨accepted, moved⟩
  · obtain ⟨rfl, rfl⟩ := pure_ok.mp run
    rfl

theorem reads_of_takes {text : String} (input : IsInput c.upcoming)
    (run : takes text c = .ok true d) : c.Reads (word text) d := by
  obtain ⟨accepted, moved⟩ := consume_ok (liftM_ok.mp run)
  have passes := Cursor.passes_of_advance moved input (isEnd_of_accepts accepted)
  exact .of_passes passes input ⟨_, rfl, accepted⟩

theorem eq_of_takes_false {text : String} (run : takes text c = .ok false d) : d = c :=
  consume_ok (liftM_ok.mp run)

theorem reads_of_expect {text : String} {u : Unit} (input : IsInput c.upcoming)
    (run : expect text c = .ok u d) : c.Reads (word text) d :=
  reads_of_takes input (expect_ok.mp run)

theorem reads_identifier : identifier.Reads Identifier.written := by
  intro c id d input run
  rw [identifier, current_bind] at run
  split at run
  · next named =>
    obtain ⟨_, e, moved, result⟩ := bind_ok.mp run
    obtain ⟨rfl, rfl⟩ := pure_ok.mp result
    have more : c.current.isEnd = false := by simp [Token.isEnd, named]
    exact reads_of_advance input more ⟨_, rfl, named, rfl⟩ moved
  · exact (not_expected_ok run).elim

/-- What an optional part reads: nothing if it is absent. -/
def ifAny (l : α → Language Token) (part : Option α) : Language Token := part.elim 1 l

theorem reads_required {what : Expectation} {part : Parser (Option α)} {l : α → Language Token}
    (h : part.Reads (ifAny l)) : (required what part).Reads l :=
  fun _ _ _ input run => h input (required_ok.mp run)

theorem reads_behind {text : String} {item : Parser α} {l : α → Language Token}
    (h : item.Reads l) : (behind text item).Reads (ifAny (word text * l ·)) := by
  intro c result d input run
  cases result with
  | none =>
    obtain rfl := eq_of_takes_false (behind_none.mp run)
    exact .refl input
  | some a =>
    obtain ⟨e, taken, run⟩ := behind_some.mp run
    have first := reads_of_takes input taken
    exact first.mul (h first.input run)

/-- The parts of a loop, and what the step that gave no more has read. -/
theorem reads_manyUpTo {β : Type} {step : Parser (Option α)} {l : α → Language Token}
    {last : Language Token} (h : step.Reads (·.elim last l)) (empty : [] ∈ last)
    (bound : List β) : (manyUpTo step bound).Reads fun parts => (parts.map l).prod * last := by
  induction bound with
  | nil =>
    intro c parts d input run
    obtain ⟨rfl, rfl⟩ := pure_ok.mp run
    exact .of_passes (.refl _) input (nil_mem_mul.mpr ⟨rfl, empty⟩)
  | cons _ bound ih =>
    intro c parts d input run
    obtain ⟨result, e, first, run⟩ := bind_ok.mp run
    have head := h input first
    cases result with
    | none =>
      obtain ⟨rfl, rfl⟩ := pure_ok.mp run
      simpa using head
    | some a =>
      obtain ⟨others, f, rest, result⟩ := bind_ok.mp run
      obtain ⟨rfl, rfl⟩ := pure_ok.mp result
      simp only [List.map_cons, List.prod_cons, mul_assoc]
      exact head.mul (ih head.input rest)

theorem reads_many_last {step : Parser (Option α)} {l : α → Language Token}
    {last : Language Token} (h : step.Reads (·.elim last l)) (empty : [] ∈ last) :
    (many step).Reads fun parts => (parts.map l).prod * last :=
  fun c _ _ input run => reads_manyUpTo h empty c.ahead input run

theorem reads_many {step : Parser (Option α)} {l : α → Language Token}
    (h : step.Reads (ifAny l)) : (many step).Reads fun parts => (parts.map l).prod := by
  intro c parts d input run
  have reads : c.Reads ((parts.map l).prod * 1) d := reads_many_last h rfl input run
  simpa only [mul_one] using reads

theorem reads_commaSeparated {item : Parser α} {l : α → Language Token} (h : item.Reads l) :
    (commaSeparated item).Reads fun items => separatedBy (word ",") (items.map l) := by
  intro c items d input run
  obtain ⟨first, e, ofFirst, body⟩ := bind_ok.mp run
  obtain ⟨rest, f, ofRest, result⟩ := bind_ok.mp body
  obtain ⟨rfl, rfl⟩ := pure_ok.mp result
  have head := h input ofFirst
  have tail := reads_many (reads_behind h) head.input ofRest
  simp only [List.map_cons, separatedBy, List.map_map]
  exact head.mul tail

theorem ne_nil_of_commaSeparated {item : Parser α} {items : List α}
    (run : commaSeparated item c = .ok items d) : items ≠ [] := by
  obtain ⟨first, e, -, body⟩ := bind_ok.mp run
  obtain ⟨rest, f, -, result⟩ := bind_ok.mp body
  obtain ⟨rfl, rfl⟩ := pure_ok.mp result
  exact List.cons_ne_nil _ _

theorem shrinks_of_reads {step : Parser (Option α)} {l : α → Language Token}
    (h : step.Reads (ifAny l)) (more : ∀ a, [] ∉ l a) : Shrinks step :=
  fun _ a _ input run => ⟨(h input run).input, (h input run).length_lt (more a)⟩

theorem shrinks_behind {item : Parser α} {l : α → Language Token} (text : String)
    (h : item.Reads l) : Shrinks (behind text item) :=
  shrinks_of_reads (reads_behind h) fun a => by simp

/-- A step that builds something has read what stands behind the old tree in the new one. -/
def Extends (step : α → Parser (Option α)) (l : α → Language Token) : Prop :=
  ∀ ⦃start c result d⦄, IsInput c.upcoming → step start c = .ok result d →
    match result with
    | some a => ∃ m : Language Token, [] ∉ m ∧ l a = l start * m ∧ c.Reads m d
    | none => c.Reads 1 d

theorem shrinks_of_extends {step : α → Parser (Option α)} {l : α → Language Token}
    (h : Extends step l) (start : α) : Shrinks (step start) := by
  intro c a d input run
  obtain ⟨m, more, -, reads⟩ := h input run
  exact ⟨reads.input, reads.length_lt more⟩

theorem reads_growUpTo {β : Type} {step : α → Parser (Option α)} {l : α → Language Token}
    (h : Extends step l) (bound : List β) {start result : α} (input : IsInput c.upcoming)
    (run : growUpTo step bound start c = .ok result d) :
    ∃ m, l result = l start * m ∧ c.Reads m d := by
  induction bound generalizing start c with
  | nil =>
    obtain ⟨rfl, rfl⟩ := pure_ok.mp run
    exact ⟨1, (mul_one _).symm, .refl input⟩
  | cons _ bound ih =>
    obtain ⟨built, e, first, run⟩ := bind_ok.mp run
    have step := h input first
    cases built with
    | none =>
      obtain ⟨rfl, rfl⟩ := pure_ok.mp run
      exact ⟨1, (mul_one _).symm, step⟩
    | some a =>
      obtain ⟨m, -, same, reads⟩ := step
      obtain ⟨n, more, further⟩ := ih reads.input run
      exact ⟨m * n, by rw [more, same, mul_assoc], reads.mul further⟩

theorem reads_grow {step : α → Parser (Option α)} {l : α → Language Token} (h : Extends step l)
    {start result : α} (input : IsInput c.upcoming) (run : grow step start c = .ok result d) :
    ∃ m, l result = l start * m ∧ c.Reads m d :=
  reads_growUpTo h c.ahead input run

end Parser
end LuaFrontend
