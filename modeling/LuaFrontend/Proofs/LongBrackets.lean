import LuaFrontend.Error
import LuaFrontend.Proofs.LexemeCut
import LuaFrontend.Proofs.ReportedPositions

set_option autoImplicit false

namespace LuaFrontend

namespace Lexeme

/-- The word occurs in the text between these two pieces, and nowhere further to the left. -/
structure IsFirstOccurrence (word s before behind : List Char) : Prop where
  split : s = before ++ (word ++ behind)
  first : ∀ other, other ++ word <+: s → before.length ≤ other.length

section Search

variable {word close s before behind : List Char}

theorem exists_firstOccurrence (h : word <:+: s) :
    ∃ before behind, IsFirstOccurrence word s before behind := by
  classical
  have occurs : ∃ n, s.take n ++ word <+: s := by
    obtain ⟨front, back, rfl⟩ := h
    refine ⟨front.length, back, ?_⟩
    simp
  have found := Nat.find_spec occurs
  obtain ⟨behind, split⟩ := found
  refine ⟨_, behind, by rw [← List.append_assoc]; exact split.symm, fun other isOther => ?_⟩
  have front : other = s.take other.length :=
    List.prefix_iff_eq_take.mp ((List.prefix_append _ _).trans isOther)
  have least := Nat.find_min' occurs (m := other.length) (by rwa [← front])
  exact (List.length_take_le _ _).trans least

/-- Where the word stands further to the right, it does so in the text behind the first
character. -/
theorem IsFirstOccurrence.tail {c : Char} (h : IsFirstOccurrence word (c :: s) (c :: before) behind) :
    IsFirstOccurrence word s before behind where
  split := (List.cons.inj h.split).2
  first other isOther := by
    have longer := h.first (c :: other) (List.cons_prefix_cons.mpr ⟨rfl, isOther⟩)
    simpa using longer

/-- The search goes through the first occurrence of what closes. -/
theorem through_of_first (some : close ≠ []) (h : IsFirstOccurrence close s before behind) :
    through close s = ⟨before ++ close, behind, true⟩ := by
  induction s generalizing before with
  | nil =>
    have empty := h.split.symm
    simp only [List.append_eq_nil_iff] at empty
    exact absurd empty.2.1 some
  | cons c s ih =>
    rw [through]
    cases before with
    | nil =>
      have here : c :: s = close ++ behind := h.split
      rw [if_pos (List.isPrefixOf_iff_prefix.mpr ⟨behind, here.symm⟩), here, List.take_left,
        List.drop_left]
      rfl
    | cons d before =>
      obtain ⟨rfl, -⟩ := List.cons.inj h.split
      have later : ¬ close.isPrefixOf (c :: s) := by
        intro here
        have nowhere := h.first [] (List.isPrefixOf_iff_prefix.mp here)
        simp at nowhere
      rw [if_neg later, ih h.tail]
      rfl

/-- Without an occurrence the search takes everything. -/
theorem through_of_none (h : ¬ close <:+: s) : through close s = ⟨s, [], false⟩ := by
  induction s with
  | nil => rfl
  | cons c s ih =>
    have here : ¬ close.isPrefixOf (c :: s) := fun front =>
      h (List.isPrefixOf_iff_prefix.mp front).isInfix
    have later : ¬ close <:+: s := fun inside => h (inside.trans (List.suffix_cons c s).isInfix)
    rw [through, if_neg here, ih later]
    rfl

end Search

/-- What can stand in long brackets. -/
inductive LongForm where
  | string
  | comment

namespace LongForm

/-- What is written in front of the bracket. -/
def lead : LongForm → List Char
  | string => []
  | comment => ['-', '-']

def kind : LongForm → TokenKind
  | string => .string
  | comment => .comment

def fault : LongForm → Fault
  | string => .unfinishedLongString
  | comment => .unfinishedLongComment

end LongForm

namespace LongForm

variable (form : LongForm)

theorem inline_lead : ∀ c ∈ form.lead, isLineBreak c = false := by
  cases form <;> simp [lead, isLineBreak]

/-- What stands in front of the bracket stands on its line. -/
theorem line_after_lead (p : Position) : (p.after form.lead).line = p.line := by
  cases form with
  | string => rw [lead, Position.after_nil]
  | comment => rfl

variable {form} {e : LexError}

theorem position_eq (h : e.fault = form.fault) : e.position = e.start.after e.near.toList := by
  rw [LexError.position, h]
  cases form <;> rfl

end LongForm

/-- A bracket with its signs is read to its closing bracket, behind two dashes or not. -/
theorem read_long (dialect : Dialect) (form : LongForm) (level : Nat) (inside : List Char) :
    read dialect (form.lead ++ (opening level ++ inside)) =
      .ofPart ((through (closing level) inside).push (form.lead ++ opening level))
        form.kind form.fault := by
  have opens : openingLevel? (opening level ++ inside) = some level :=
    openingLevel?_eq_some.mpr (List.prefix_append _ _)
  have part := bracketed_append level inside
  cases form with
  | string =>
    have begins : start dialect (opening level ++ inside) = .longBracket := by
      cases level <;> simp [start, opening, isNameStart, isDigit, List.replicate_succ]
    simp only [LongForm.lead, List.nil_append, read, begins, readLongString, opens, part]
    rfl
  | comment =>
    have begins : start dialect ('-' :: '-' :: (opening level ++ inside)) = .comment := by
      simp [start, isNameStart, isDigit]
    simp only [LongForm.lead, List.cons_append, List.nil_append, read, begins, List.drop_succ_cons,
      List.drop_zero, readComment, opens, part]
    rfl

theorem openingLevel?_eq_none {s : List Char} (h : ∀ level, ¬ opening level <+: s) :
    openingLevel? s = none :=
  Option.eq_none_iff_forall_not_mem.mpr fun level found =>
    h level (openingLevel?_eq_some.mp (Option.mem_def.mp found))

/-- A bracket and signs behind which no second bracket comes. -/
theorem read_brokenOpening (dialect : Dialect) {signs rest : List Char} (some : signs ≠ [])
    (all : ∀ c ∈ signs, c = '=') (noSign : rest.head? ≠ Option.some '=')
    (noBracket : rest.head? ≠ Option.some '[') :
    read dialect ('[' :: (signs ++ rest)) =
      .ofPart ⟨'[' :: signs, rest, false⟩ .string .invalidLongStringDelimiter := by
  have areSigns : ∀ c ∈ signs, isEqualsSign c := fun c member => beq_iff_eq.mpr (all c member)
  have stops : rest.takeWhile isEqualsSign = [] ∧ rest.dropWhile isEqualsSign = rest := by
    cases rest with
    | nil => exact ⟨rfl, rfl⟩
    | cons c rest =>
      have other : isEqualsSign c = false := by simpa [isEqualsSign] using noSign
      simp [other]
  have opensNot : openingLevel? ('[' :: (signs ++ rest)) = none := by
    simp only [openingLevel?, List.dropWhile_append_of_pos areSigns, stops.2]
    split
    · exact absurd rfl noBracket
    · rfl
  have begins : start dialect ('[' :: (signs ++ rest)) = .longBracket := by
    obtain ⟨c, others, rfl⟩ := List.exists_cons_of_ne_nil some
    obtain rfl := all c List.mem_cons_self
    simp [start, isNameStart, isDigit]
  simp only [read, begins, readLongString, opensNot, brokenOpening, Part.run,
    List.takeWhile_append_of_pos areSigns, List.dropWhile_append_of_pos areSigns, stops,
    List.append_nil]
  rfl

/-- Two dashes behind which no long bracket opens. -/
theorem read_lineComment (dialect : Dialect) {line behind : List Char}
    (opensNot : ∀ level, ¬ opening level <+: line ++ behind)
    (inline : ∀ c ∈ line, isLineBreak c = false) (stops : ∀ c ∈ behind.head?, isLineBreak c) :
    read dialect ('-' :: '-' :: (line ++ behind)) =
      .ofPart ⟨'-' :: '-' :: line, behind, true⟩ .comment .unfinishedLongComment := by
  have begins : start dialect ('-' :: '-' :: (line ++ behind)) = .comment := by
    simp [start, isNameStart, isDigit]
  have goesOn : ∀ c ∈ line, (!isLineBreak c) = true := fun c member => by simp [inline c member]
  have ends : behind.takeWhile (!isLineBreak ·) = [] ∧
      behind.dropWhile (!isLineBreak ·) = behind := by
    cases behind with
    | nil => exact ⟨rfl, rfl⟩
    | cons c behind => simp [stops c rfl]
  simp only [read, begins, List.drop_succ_cons, List.drop_zero, readComment,
    openingLevel?_eq_none opensNot, lineComment, Part.run, List.takeWhile_append_of_pos goesOn,
    List.dropWhile_append_of_pos goesOn, ends, List.append_nil]
  rfl

end Lexeme

namespace Tokenizer

/-- Behind a part of its line, a tokenizer counts the same line. -/
theorem StandsIn.line_eq {source : List Char} {t : Tokenizer} (h : t.StandsIn source)
    {front rest : List Char} (split : t.rest = front ++ rest)
    (inline : ∀ c ∈ front, isLineBreak c = false) :
    (lineAt source (t.here.offset + byteLength front)).line = (t.here.after front).line := by
  obtain ⟨passed, stands⟩ := h
  have further : ({ t with here := t.here.after front, rest } : Tokenizer).StandsBehind source
      (passed ++ front) := stands.goOn split rfl (.of_forall inline rest)
  have counted := further.isCounted.eq_lineAt
  rw [Position.offset_after] at counted
  rw [← counted]

section Brackets

open Lexeme

variable {t : Tokenizer} {form : LongForm} {level : Nat} {inside before after : List Char}

theorem next_of_closed (begins : t.skipSpace.rest = form.lead ++ (opening level ++ inside))
    (first : IsFirstOccurrence (closing level) inside before after) :
    t.next.1 = .ok ⟨form.kind,
      String.ofList (form.lead ++ opening level ++ (before ++ closing level)),
      t.skipSpace.here⟩ := by
  have read := read_long t.dialect form level inside
  have some : closing level ≠ [] := List.cons_ne_nil _ _
  rw [through_of_first some first] at read
  exact next_of_part (by rw [begins]; exact read)

/-- What is never closed goes on to the end of the text. -/
theorem next_of_unclosed (begins : t.skipSpace.rest = form.lead ++ (opening level ++ inside))
    (never : ¬ closing level <:+: inside) :
    t.next.1 = .error ⟨form.fault, t.skipSpace.here, String.ofList t.skipSpace.rest⟩ := by
  have read := read_long t.dialect form level inside
  rw [through_of_none never] at read
  have failed := next_of_part (t := t) (by rw [begins]; exact read)
  rw [Part.push, List.append_assoc, ← begins] at failed
  exact failed

end Brackets

end Tokenizer
end LuaFrontend
