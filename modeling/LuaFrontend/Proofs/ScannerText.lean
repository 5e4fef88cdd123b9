import LuaFrontend.Proofs.DecodedText
import LuaFrontend.Proofs.ScannerMoves
import Mathlib.Data.List.TakeWhile

set_option autoImplicit false

namespace LuaFrontend

namespace Utf8

theorem decodeFrom_append (text : List Char) (rest : List UInt8) :
    decodeFrom none (text.flatMap String.utf8EncodeChar ++ rest) =
      text ++ decodeFrom none rest := by
  induction text with
  | nil => rfl
  | cons c text ih =>
    rw [List.flatMap_cons, List.append_assoc, decodeFrom_encode, ih, List.cons_append]

/-- A text begins with a word if its bytes begin with those of the word. -/
theorem isPrefixOf_encode (word text : List Char) :
    (word.flatMap String.utf8EncodeChar).isPrefixOf (text.flatMap String.utf8EncodeChar) =
      word.isPrefixOf text := by
  rw [Bool.eq_iff_iff, List.isPrefixOf_iff_prefix, List.isPrefixOf_iff_prefix]
  constructor
  · rintro ⟨behind, same⟩
    have decoded := congrArg (decodeFrom none) same
    rw [decodeFrom_append, ← decodeLossy, ← decodeLossy, decodeLossy_encode] at decoded
    exact ⟨_, decoded⟩
  · rintro ⟨behind, rfl⟩
    rw [List.flatMap_append]
    exact List.prefix_append _ _

end Utf8

theorem toUTF8_data (word : String) :
    word.toUTF8.data.toList = word.toList.flatMap String.utf8EncodeChar := by
  have bytes : word.toUTF8 = word.toList.utf8Encode := by
    rw [← String.toByteArray_ofList, String.ofList_toList]
    rfl
  simp only [bytes, List.utf8Encode, List.data_toByteArray]

theorem byteLength_eq_zero {s : List Char} : byteLength s = 0 ↔ s = [] := by
  constructor
  · intro none
    cases s with
    | nil => rfl
    | cons c s =>
      have positive := c.utf8Size_pos
      rw [byteLength_cons] at none
      omega
  · rintro rfl
    rfl

/-- The beginning of the line stays in front of the position. -/
theorem Position.lineStart_after_le {p : Position} (h : p.lineStart ≤ p.offset) (text : List Char) :
    (p.after text).lineStart ≤ (p.after text).offset := by
  fun_induction after p text with
  | case1 => exact h
  | case2 => exact Nat.le_refl _
  | case3 p a => exact Nat.le_trans h (Nat.le_add_right _ _)
  | case4 p a b rest pair ih => exact ih (Nat.le_refl _)
  | case5 p a b rest alone breaks ih => exact ih (Nat.le_refl _)
  | case6 p a b rest alone other ih => exact ih (Nat.le_trans h (Nat.le_add_right _ _))

theorem Position.after_inline {text : List Char} (h : ∀ c ∈ text, isLineBreak c = false)
    (p : Position) : p.after text = p.forward (byteLength text) := by
  have none (offset : Nat) : lineEnds offset text = [] := by
    fun_induction lineEnds offset text with
    | case1 => rfl
    | case2 offset a breaks => rw [h a List.mem_cons_self] at breaks; contradiction
    | case3 => rfl
    | case4 offset a b rest pair ih =>
      rw [isBreakPair_eq_false_left (h a List.mem_cons_self)] at pair
      contradiction
    | case5 offset a b rest alone breaks ih =>
      rw [h a List.mem_cons_self] at breaks
      contradiction
    | case6 offset a b rest alone other ih => exact ih fun c inside => h c (.tail a inside)
  rw [after_eq, none]
  rfl

namespace Scanner

/-- The head is in the text, and this much of it is ahead. -/
structure Faces (s : Scanner) (text : List Char) : Prop where
  bytes : s.IsBefore text
  inside : s.IsInText

theorem faces_ofString (text : String) (extended : Bool) :
    (ofString text extended).Faces text.toList :=
  ⟨isBefore_ofString text extended, isInText_ofString text extended⟩

variable {s : Scanner} {c d : Char} {rest text taken a b : List Char} {test : Char → Bool}

section Questions

section Bytes

variable {b : UInt8} {others : List UInt8}

/-- The byte ahead, also where the head is inside a character. -/
theorem isAt_of_drop (ahead : s.source.toList.drop s.position = b :: others)
    (test : Char → Bool) : s.isAt test 0 = test (.ofUInt8 b) := by
  have first : s.peekAt 0 = some b := by
    rw [peekAt, ← Array.getElem?_toList, ← List.getElem?_drop, ahead]
    rfl
  rw [isAt, first]
  rfl

theorem lt_size_of_drop (ahead : s.source.toList.drop s.position = b :: others) :
    s.position < s.source.size := by
  have length := congrArg List.length ahead
  rw [List.length_drop, Array.length_toList, List.length_cons] at length
  omega

theorem isPastEnd_of_drop (ahead : s.source.toList.drop s.position = b :: others) :
    s.isPastEnd 0 = false :=
  decide_eq_false (Nat.not_le_of_lt (lt_size_of_drop ahead))

theorem advance_of_drop (ahead : s.source.toList.drop s.position = b :: others) :
    s.advance = { s with position := s.position + 1 } := by
  rw [advance, advanceBy, Nat.min_eq_left (lt_size_of_drop ahead)]

end Bytes

/-- A question about the byte behind a part of the text is one about the character there. -/
theorem Faces.isAt (h : s.Faces (a ++ rest)) (bytewise : IsBytewise test) :
    s.isAt test (byteLength a) = rest.head?.any test := by
  rw [Scanner.isAt, h.bytes.peekAt, List.flatMap_append,
    List.getElem?_append_right (Nat.le_of_eq (length_flatMap_utf8EncodeChar a)),
    length_flatMap_utf8EncodeChar, Nat.sub_self]
  cases rest with
  | nil => rfl
  | cons c rest =>
    obtain ⟨b, others, bytes⟩ := exists_utf8EncodeChar c
    rw [List.flatMap_cons, bytes]
    exact bytewise c b (bytes ▸ List.mem_cons_self)

theorem Faces.isAt_zero (h : s.Faces text) (bytewise : IsBytewise test) :
    s.isAt test 0 = text.head?.any test :=
  Faces.isAt (a := []) h bytewise

theorem Faces.isAt_one (h : s.Faces (c :: text)) (one : c.utf8Size = 1)
    (bytewise : IsBytewise test) : s.isAt test 1 = text.head?.any test := by
  have answer := Faces.isAt (a := [c]) h bytewise
  rwa [byteLength_cons, byteLength_nil, Nat.add_zero, one] at answer

/-- How many bytes are left. -/
theorem Faces.size_eq (h : s.Faces text) : s.source.size = s.position + byteLength text := by
  have length := congrArg List.length h.bytes
  have bound := h.inside.position_le
  rw [List.length_drop, Array.length_toList, length_flatMap_utf8EncodeChar] at length
  omega

theorem Faces.isPastEnd (h : s.Faces text) : s.isPastEnd 0 = text.isEmpty := by
  have size := h.size_eq
  cases text with
  | nil =>
    apply decide_eq_true
    rw [size]
    exact Nat.le_refl _
  | cons c text =>
    apply decide_eq_false
    have positive := c.utf8Size_pos
    rw [byteLength_cons] at size
    omega

theorem Faces.peek_eq_none (h : s.Faces []) : s.peek = none := h.bytes.peekAt 0

theorem Faces.peek_eq_some (h : s.Faces (c :: text)) :
    ∃ b rest, s.peek = some b ∧ String.utf8EncodeChar c = b :: rest := by
  obtain ⟨b, rest, bytes⟩ := exists_utf8EncodeChar c
  refine ⟨b, rest, ?_, bytes⟩
  rw [Scanner.peek, h.bytes.peekAt, List.flatMap_cons, bytes]
  rfl

theorem Faces.slice?_rest (h : s.Faces text) :
    s.slice? s.position s.source.size = some (text.flatMap String.utf8EncodeChar) := by
  rw [Scanner.slice?, if_pos ⟨h.inside.position_le, Nat.le_refl _⟩, ← h.bytes, Scanner.slice,
    Array.toList_extract, List.extract_eq_take_drop, ← Array.length_toList,
    ← List.length_drop, List.take_length]

theorem Faces.startsWith? (h : s.Faces text) (word : String) :
    s.startsWith? word = some (word.toList.isPrefixOf text) := by
  rw [Scanner.startsWith?, h.slice?_rest, toUTF8_data]
  exact congrArg some (Utf8.isPrefixOf_encode word.toList text)

theorem Faces.charWidth (h : s.Faces (c :: text)) : s.charWidth = c.utf8Size := by
  obtain ⟨b, rest, first, bytes⟩ := h.peek_eq_some
  rw [Scanner.charWidth, first]
  exact Utf8.announcedWidth_of_encode bytes

/-- The character ahead is found whole. -/
theorem Faces.peekChar? (h : s.Faces (c :: text)) : s.peekChar? = some (some c) := by
  have size := h.size_eq
  rw [byteLength_cons] at size
  have slice : s.slice s.position (s.position + c.utf8Size) = [c].flatMap String.utf8EncodeChar := by
    rw [Scanner.slice, Array.toList_extract, List.extract_eq_take_drop, h.bytes,
      Nat.add_sub_cancel_left, List.flatMap_cons, List.flatMap_singleton,
      ← String.length_utf8EncodeChar, List.take_left]
  rw [Scanner.peekChar?, h.charWidth, Nat.min_eq_left (by omega), Scanner.slice?,
    if_pos (by omega), slice]
  change some ((Utf8.decode? _).bind List.head?) = _
  rw [Utf8.decode?_encode]
  rfl

end Questions

section Moves

/-- The scanner behind a text, its lines counted. -/
def passed (s : Scanner) (taken : List Char) : Scanner := s.standing (s.here.after taken)

@[simp] theorem passed_nil (s : Scanner) : s.passed [] = s := by
  rw [passed, Position.after_nil]
  rfl

theorem passed_append (clean : CutsClean a b) : (s.passed a).passed b = s.passed (a ++ b) := by
  rw [passed, passed, passed, ← Position.after_append _ clean]
  rfl

theorem passed_inline (inline : ∀ c ∈ taken, isLineBreak c = false) :
    s.passed taken = { s with position := s.position + byteLength taken } := by
  rw [passed, Position.after_inline inline]
  rfl

theorem position_passed (s : Scanner) (taken : List Char) :
    (s.passed taken).position = s.position + byteLength taken :=
  Position.offset_after s.here taken

theorem Faces.passed (h : s.Faces (taken ++ rest)) : (s.passed taken).Faces rest := by
  have size := h.size_eq
  rw [byteLength_append] at size
  have position := position_passed s taken
  constructor
  · change s.source.toList.drop (s.passed taken).position = _
    rw [position, ← List.drop_drop, h.bytes, List.flatMap_append, ← length_flatMap_utf8EncodeChar,
      List.drop_left]
  · refine ⟨?_, ?_, Position.lineStart_after_le h.inside.lineStart_le taken⟩
    · change (s.passed taken).position ≤ s.source.size
      omega
    · change s.mark ≤ (s.passed taken).position
      have bound := h.inside.mark_le
      omega

/-- Bytes may be passed without looking for line ends where there are none. -/
theorem Faces.advanceBy (h : s.Faces (a ++ rest)) (inline : ∀ c ∈ a, isLineBreak c = false) :
    s.advanceBy (byteLength a) = s.passed a := by
  rw [passed_inline inline]
  exact (h.bytes.advanceBy h.inside).1

theorem Faces.advance (h : s.Faces (c :: rest)) (one : c.utf8Size = 1)
    (inline : isLineBreak c = false) : s.advance = s.passed [c] := by
  have moved := Faces.advanceBy (a := [c]) h (by simpa using inline)
  rwa [byteLength_cons, byteLength_nil, Nat.add_zero, one] at moved

/-- What ends a line in front of this text: a pair of line break characters, or a single one that is
no pair with the next. -/
inductive IsLineEndBefore (rest : List Char) : List Char → Prop
  | pair {c d : Char} (pair : isBreakPair c d) : IsLineEndBefore rest [c, d]
  | single {c : Char} (breaks : isLineBreak c)
    (alone : ∀ d ∈ rest.head?, isBreakPair c d = false) : IsLineEndBefore rest [c]

namespace IsLineEndBefore

theorem ne_nil (h : IsLineEndBefore rest taken) : taken ≠ [] := by
  cases h with
  | pair pair => exact List.cons_ne_nil _ _
  | single breaks alone => exact List.cons_ne_nil _ _

theorem breaks (h : IsLineEndBefore rest taken) : ∀ c ∈ taken, isLineBreak c := by
  cases h with
  | pair pair => simpa using isLineBreak_of_isBreakPair pair
  | single breaks alone => simpa using breaks

theorem clean (h : IsLineEndBefore rest taken) : CutsClean taken rest := by
  cases h with
  | pair pair =>
    rw [CutsClean, if_pos pair]
    trivial
  | single breaks alone => exact alone

end IsLineEndBefore

/-- A line end is taken whole. -/
theorem Faces.consumeLineEnd (h : s.Faces (c :: text)) (breaks : isLineBreak c) :
    ∃ taken rest, c :: text = taken ++ rest ∧ IsLineEndBefore rest taken ∧
      s.consumeLineEnd = (true, s.passed taken) := by
  have here : s.holds 0 .lineBreak := h.bytes.holds_lineBreak.trans breaks
  have answer : s.consumeLineEnd.1 = true := by rw [Scanner.consumeLineEnd, if_pos here]
  have single (alone : ∀ d ∈ text.head?, isBreakPair c d = false) :
      s.consumeLineEnd = (true, s.passed [c]) := by
    have moved := (consumeLineEnd_of_single h.bytes h.inside breaks alone).1
    apply Prod.ext answer
    rw [Scanner.passed, Position.after, if_pos breaks]
    exact moved
  cases text with
  | nil =>
    have alone : ∀ d ∈ ([] : List Char).head?, isBreakPair c d = false :=
      fun _ first => absurd first (Option.not_mem_none _)
    exact ⟨[c], [], rfl, .single breaks alone, single alone⟩
  | cons d text =>
    cases pair : isBreakPair c d with
    | false =>
      have alone : ∀ e ∈ (d :: text).head?, isBreakPair c e = false := by
        intro e first
        obtain rfl := Option.some.inj first
        exact pair
      exact ⟨[c], d :: text, rfl, .single breaks alone, single alone⟩
    | true =>
      have moved := (consumeLineEnd_of_pair h.bytes h.inside pair).1
      refine ⟨[c, d], text, rfl, .pair pair, Prod.ext answer ?_⟩
      rw [Scanner.passed, Position.after, if_pos pair, Position.after_nil]
      exact moved

theorem Faces.consumeLineEnd_none (h : s.Faces rest) (none : rest.head?.any isLineBreak = false) :
    s.consumeLineEnd = (false, s) := by
  have answer : s.holds 0 .lineBreak = false :=
    (h.isAt_zero isBytewise_isLineBreak).trans none
  rw [Scanner.consumeLineEnd, if_neg (Bool.eq_false_iff.mp answer)]

/-- As long as bytes of the class come, the head moves on by one. -/
theorem scanUpTo_bytes {bytes others : List UInt8}
    (all : ∀ b ∈ bytes, test (.ofUInt8 b)) (stops : ∀ b ∈ others.head?, test (.ofUInt8 b) = false)
    (ahead : s.source.toList.drop s.position = bytes ++ others) (count : Nat)
    (enough : bytes.length + others.length = count) :
    scanUpTo (·.isAt test 0) count s = { s with position := s.position + bytes.length } := by
  induction count generalizing s bytes with
  | zero =>
    obtain rfl : bytes = [] := List.length_eq_zero_iff.mp (by omega)
    rfl
  | succ count ih =>
    have first : s.peekAt 0 = (bytes ++ others).head? := by
      rw [peekAt, ← Array.getElem?_toList, List.head?_eq_getElem?, ← ahead, List.getElem?_drop]
    rw [scanUpTo]
    cases bytes with
    | nil =>
      rw [List.nil_append] at first
      have no : s.isAt test 0 = false := by
        rw [Scanner.isAt, first]
        cases head : others.head? with
        | none => rfl
        | some b => exact stops b head
      rw [if_neg (Bool.eq_false_iff.mp no)]
      rfl
    | cons b bytes =>
      have yes : s.isAt test 0 = true := by
        rw [Scanner.isAt, first]
        exact all b List.mem_cons_self
      have next : s.source.toList.drop (s.position + 1) = bytes ++ others := by
        rw [← List.drop_drop, ahead]
        rfl
      rw [List.length_cons] at enough
      rw [if_pos yes, ih (s := { s with position := s.position + 1 })
        (fun a member => all a (.tail b member)) next (by omega), List.length_cons, Nat.add_assoc,
        Nat.add_comm 1]

/-- Characters of a class are passed as long as they come. -/
theorem Faces.scanWhile (h : s.Faces text) (bytewise : IsBytewise test)
    (inline : ∀ c ∈ text.takeWhile test, isLineBreak c = false) :
    s.scanWhile (·.isAt test 0) = s.passed (text.takeWhile test) := by
  have size := h.size_eq
  have ahead := h.bytes
  rw [IsBefore, ← List.takeWhile_append_dropWhile (p := test) (l := text),
    List.flatMap_append] at ahead
  rw [passed_inline inline, ← length_flatMap_utf8EncodeChar]
  apply scanUpTo_bytes _ _ ahead
  · rw [length_flatMap_utf8EncodeChar, length_flatMap_utf8EncodeChar, ← byteLength_append,
      List.takeWhile_append_dropWhile]
    omega
  · intro b member
    obtain ⟨c, inside, isByte⟩ := List.mem_flatMap.mp member
    rw [bytewise c b isByte]
    exact List.mem_takeWhile_imp inside
  · intro b first
    have stops := List.head?_dropWhile_not test text
    cases behind : text.dropWhile test with
    | nil =>
      rw [behind] at first
      cases first
    | cons c others =>
      rw [behind] at first stops
      obtain ⟨a, more, bytes⟩ := exists_utf8EncodeChar c
      rw [List.flatMap_cons, bytes] at first
      obtain rfl := Option.some.inj first
      rw [bytewise c a (bytes ▸ List.mem_cons_self)]
      exact stops

/-- Only what a test says inside the text matters. -/
theorem scanUpTo_congr {test other : Scanner → Bool}
    (same : ∀ position < s.source.size, test { s with position } = other { s with position })
    {count : Nat} (room : s.position + count ≤ s.source.size) :
    scanUpTo test count s = scanUpTo other count s := by
  induction count generalizing s with
  | zero => rfl
  | succ count ih =>
    have here : test s = other s := same s.position (by omega)
    rw [scanUpTo, scanUpTo, here]
    split
    · exact ih same (by dsimp only; omega)
    · rfl

/-- What is passed until a line break comes. -/
theorem Faces.scanUntil_lineBreak (h : s.Faces text) :
    s.scanUntil (·.holds 0 .lineBreak) = s.passed (text.takeWhile (!isLineBreak ·)) := by
  rw [← h.scanWhile isBytewise_isLineBreak.not fun c inside => by
    simpa using List.mem_takeWhile_imp inside]
  apply scanUpTo_congr
  · intro position inside
    change (!Scanner.isAt { s with position } isLineBreak 0) = _
    simp only [Scanner.isAt, peekAt, Nat.add_zero, Array.getElem?_eq_getElem inside]
    rfl
  · have bound := h.inside.position_le
    omega

end Moves

section Captures

/-- What lies between the mark and the head is what was passed since the mark was set. -/
theorem Faces.slice?_passed (h : s.Faces (taken ++ rest)) (marked : s.mark = s.position) :
    (s.passed taken).slice? s.mark (s.passed taken).position =
      some (taken.flatMap String.utf8EncodeChar) := by
  have size := h.size_eq
  rw [byteLength_append] at size
  have position := position_passed s taken
  rw [Scanner.slice?, if_pos (by change _ ∧ _ ≤ s.source.size; omega), position, marked]
  change some (s.slice s.position (s.position + byteLength taken)) = _
  rw [Scanner.slice, Array.toList_extract, List.extract_eq_take_drop, h.bytes,
    Nat.add_sub_cancel_left, List.flatMap_append, ← length_flatMap_utf8EncodeChar, List.take_left]

theorem Faces.capturedText?_passed (h : s.Faces (taken ++ rest)) (marked : s.mark = s.position) :
    (s.passed taken).capturedText? = some (String.ofList taken) := by
  rw [Scanner.capturedText?]
  change ((s.passed taken).slice? s.mark _).bind _ = _
  rw [h.slice?_passed marked]
  exact congrArg (some ∘ String.ofList) (Utf8.decodeLossy_encode taken)

end Captures

end Scanner
end LuaFrontend
