import LuaFrontend.Proofs.CharacterBytes
import LuaFrontend.Proofs.LineEnds
import LuaFrontend.Source.Scanner

set_option autoImplicit false

namespace LuaFrontend

/-- What a scanner can be told to do. -/
inductive Scanner.Move where
  | setMark
  | advance
  | advanceBy (count : Nat)
  | consumeLineEnd
  | scanWhile (test : Scanner → Bool)
  | scanUntil (test : Scanner → Bool)

namespace Scanner

def move (s : Scanner) : Move → Scanner
  | .setMark => s.setMark
  | .advance => s.advance
  | .advanceBy count => s.advanceBy count
  | .consumeLineEnd => s.consumeLineEnd.2
  | .scanWhile test => s.scanWhile test
  | .scanUntil test => s.scanUntil test

/-- The head is in the text, and neither its mark nor its line begins behind it. -/
structure IsInText (s : Scanner) : Prop where
  position_le : s.position ≤ s.source.size
  mark_le : s.mark ≤ s.position
  lineStart_le : s.lineStart ≤ s.position

theorem isInText_ofString (text : String) (extended : Bool) :
    (ofString text extended).IsInText :=
  ⟨Nat.zero_le _, Nat.le_refl _, Nat.le_refl _⟩

namespace IsInText

variable {s : Scanner}

/-- A head that has moved on without leaving the text. -/
theorem forward (h : s.IsInText) {position : Nat} (further : s.position ≤ position)
    (inside : position ≤ s.source.size) : { s with position }.IsInText :=
  ⟨inside, Nat.le_trans h.mark_le further, Nat.le_trans h.lineStart_le further⟩

end IsInText

/-- A move keeps the text, and does not go back. -/
structure LeadsTo (s next : Scanner) : Prop where
  source : next.source = s.source
  further : s.position ≤ next.position
  isInText : next.IsInText

variable {s : Scanner}

theorem LeadsTo.refl (h : s.IsInText) : s.LeadsTo s := ⟨rfl, Nat.le_refl _, h⟩

theorem LeadsTo.trans {t u : Scanner} (h : s.LeadsTo t) (g : t.LeadsTo u) : s.LeadsTo u :=
  ⟨g.source.trans h.source, Nat.le_trans h.further g.further, g.isInText⟩

/-- The bytes from the head on are this text. -/
def IsBefore (s : Scanner) (text : List Char) : Prop :=
  s.source.toList.drop s.position = text.flatMap String.utf8EncodeChar

theorem isBefore_ofString (text : String) (extended : Bool) :
    (ofString text extended).IsBefore text.toList := by
  have bytes : text.toUTF8 = text.toList.utf8Encode := by
    rw [← String.toByteArray_ofList, String.ofList_toList]
    rfl
  simp only [IsBefore, ofString, bytes, List.utf8Encode, List.data_toByteArray, List.drop_zero]

end Scanner

namespace Scanner

variable {s : Scanner} {c d : Char} {text behind : List Char}

theorem IsBefore.peekAt (h : s.IsBefore text) (distance : Nat) :
    s.peekAt distance = (text.flatMap String.utf8EncodeChar)[distance]? := by
  rw [← h, List.getElem?_drop, Scanner.peekAt, Array.getElem?_toList]

theorem IsBefore.holds_lineBreak (h : s.IsBefore (c :: text)) :
    s.holds 0 .lineBreak = isLineBreak c := by
  obtain ⟨b, rest, bytes⟩ := exists_utf8EncodeChar c
  have first : s.peekAt 0 = some b := by
    rw [h.peekAt, List.flatMap_cons, bytes]
    rfl
  rw [holds, isAt, first]
  exact (isLineBreak_utf8EncodeChar bytes).1

theorem IsBefore.holds_breakPair (h : s.IsBefore (c :: d :: text)) (breaks : isLineBreak c) :
    s.holds 0 .breakPair = isBreakPair c d := by
  obtain ⟨a, rest, bytes⟩ := exists_utf8EncodeChar c
  obtain ⟨b, others, more⟩ := exists_utf8EncodeChar d
  have one := String.length_utf8EncodeChar c
  rw [utf8Size_of_isLineBreak breaks, bytes, List.length_cons, Nat.add_eq_right,
    List.length_eq_zero_iff] at one
  subst one
  have first : s.peekAt 0 = some a := by
    rw [h.peekAt, List.flatMap_cons, bytes]
    rfl
  have second : s.peekAt 1 = some b := by
    rw [h.peekAt, List.flatMap_cons, List.flatMap_cons, bytes, more]
    rfl
  have same := (isLineBreak_utf8EncodeChar bytes).2 breaks
  obtain ⟨also, alike⟩ := isLineBreak_utf8EncodeChar more
  simp only [holds, isBreakPairAt, first, second, same]
  cases breaksToo : isLineBreak d with
  | true => rw [alike breaksToo]
  | false =>
    rw [isBreakPair_eq_false_right breaksToo, isBreakPair_eq_false_right (also.trans breaksToo)]

theorem IsBefore.holds_breakPair_last (h : s.IsBefore [c]) (breaks : isLineBreak c) :
    s.holds 0 .breakPair = false := by
  have one := String.length_utf8EncodeChar c
  rw [utf8Size_of_isLineBreak breaks] at one
  have none : s.peekAt 1 = none := by
    rw [h.peekAt, List.getElem?_eq_none]
    simp [one]
  simp only [holds, isBreakPairAt]
  split
  · next found =>
    rw [none] at found
    cases found
  · rfl

/-- Moving behind a text that is there. -/
theorem IsBefore.advanceBy (h : s.IsBefore (text ++ behind)) (inside : s.IsInText) :
    s.advanceBy (byteLength text) = { s with position := s.position + byteLength text } ∧
      { s with position := s.position + byteLength text }.IsBefore behind := by
  have room := congrArg List.length h
  have bound := inside.position_le
  rw [List.length_drop, Array.length_toList, List.flatMap_append, List.length_append,
    length_flatMap_utf8EncodeChar] at room
  constructor
  · rw [Scanner.advanceBy, Nat.min_eq_left (by omega)]
  · rw [IsBefore, ← List.drop_drop, h, List.flatMap_append, ← length_flatMap_utf8EncodeChar,
      List.drop_left]

/-- Where the head is. -/
def here (s : Scanner) : Position := ⟨s.position, s.line, s.lineStart⟩

/-- The scanner with its head elsewhere. -/
def standing (s : Scanner) (p : Position) : Scanner :=
  { s with position := p.offset, line := p.line, lineStart := p.lineStart }

/-- A line end is taken whole: both characters of a pair. -/
theorem consumeLineEnd_of_pair (h : s.IsBefore (c :: d :: behind)) (inside : s.IsInText)
    (pair : isBreakPair c d) :
    s.move .consumeLineEnd = s.standing (s.here.nextLine 2) ∧
      (s.standing (s.here.nextLine 2)).IsBefore behind := by
  have breaks := isLineBreak_of_isBreakPair pair
  have size : byteLength [c, d] = 2 := by
    simp [utf8Size_of_isLineBreak breaks.1, utf8Size_of_isLineBreak breaks.2]
  have pairThere : s.IsBefore ([c, d] ++ behind) := h
  have further := pairThere.advanceBy inside
  rw [size] at further
  refine ⟨?_, further.2⟩
  simp only [move, consumeLineEnd, h.holds_lineBreak, breaks.1, h.holds_breakPair breaks.1, pair,
    ↓reduceIte, further.1]
  rfl

theorem consumeLineEnd_of_single (h : s.IsBefore (c :: behind)) (inside : s.IsInText)
    (breaks : isLineBreak c) (single : ∀ d ∈ behind.head?, isBreakPair c d = false) :
    s.move .consumeLineEnd = s.standing (s.here.nextLine 1) ∧
      (s.standing (s.here.nextLine 1)).IsBefore behind := by
  have charThere : s.IsBefore ([c] ++ behind) := h
  have further := charThere.advanceBy inside
  rw [byteLength_cons, utf8Size_of_isLineBreak breaks, byteLength_nil, Nat.add_zero] at further
  have alone : s.holds 0 .breakPair = false := by
    cases behind with
    | nil => exact h.holds_breakPair_last breaks
    | cons d behind => rw [h.holds_breakPair breaks, single d rfl]
  refine ⟨?_, further.2⟩
  simp only [move, consumeLineEnd, h.holds_lineBreak, breaks, alone, ↓reduceIte,
    Bool.false_eq_true, further.1]
  rfl

end Scanner
end LuaFrontend
