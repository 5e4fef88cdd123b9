import LuaFrontend.Proofs.LexerStrings
import LuaFrontend.Proofs.LongBrackets

set_option autoImplicit false

namespace LuaFrontend

namespace Lexeme

theorem isEqualsSign_iff {c : Char} : isEqualsSign c ↔ c = '=' := beq_iff_eq

/-- Signs that are counted are those that a word of them needs. -/
theorem takeWhile_isEqualsSign (s : List Char) : s.takeWhile isEqualsSign =
    List.replicate (s.takeWhile isEqualsSign).length '=' :=
  List.eq_replicate_of_mem fun _ inside => isEqualsSign_iff.mp (List.mem_takeWhile_imp inside)

/-- A bracket closes if as many signs follow it as it takes, and then another bracket. -/
theorem closing_isPrefixOf (level : Nat) (s : List Char) :
    (closing level).isPrefixOf (']' :: s) = ((s.takeWhile isEqualsSign).length == level &&
      (s.dropWhile isEqualsSign).head?.any (· == ']')) := by
  rw [Bool.eq_iff_iff, List.isPrefixOf_iff_prefix, Bool.and_eq_true, beq_iff_eq, closing,
    List.cons_append, List.cons_prefix_cons]
  constructor
  · rintro ⟨-, behind, rfl⟩
    have signs : ∀ c ∈ List.replicate level '=', isEqualsSign c := fun c inside =>
      isEqualsSign_iff.mpr (List.eq_of_mem_replicate inside)
    rw [List.append_assoc, List.takeWhile_append_of_pos signs, List.dropWhile_append_of_pos signs]
    simp [isEqualsSign]
  · rintro ⟨rfl, closes⟩
    refine ⟨rfl, ?_⟩
    obtain ⟨c, behind, same⟩ : ∃ c behind, s.dropWhile isEqualsSign = c :: behind := by
      cases rest : s.dropWhile isEqualsSign with
      | nil => simp [rest] at closes
      | cons c behind => exact ⟨c, behind, rfl⟩
    rw [same] at closes
    obtain rfl : c = ']' := beq_iff_eq.mp closes
    refine ⟨behind, ?_⟩
    rw [← takeWhile_isEqualsSign, List.append_assoc, List.singleton_append, ← same,
      List.takeWhile_append_dropWhile]

/-- Only at a closing bracket something may close. -/
theorem closing_isPrefixOf_of_ne (level : Nat) {c : Char} (other : c ≠ ']') (s : List Char) :
    (closing level).isPrefixOf (c :: s) = false := by
  have different : (']' == c) = false := beq_eq_false_iff_ne.mpr other.symm
  rw [closing, List.cons_append, List.isPrefixOf, different]
  rfl

theorem through_cons_of_ne (level : Nat) {c : Char} (other : c ≠ ']') (s : List Char) :
    through (closing level) (c :: s) = (through (closing level) s).push [c] := by
  rw [through, closing_isPrefixOf_of_ne level other, if_neg Bool.false_ne_true]

/-- What holds no closing bracket is passed. -/
theorem through_append (level : Nat) {taken : List Char} (none : ∀ c ∈ taken, c ≠ ']')
    (s : List Char) :
    through (closing level) (taken ++ s) = (through (closing level) s).push taken := by
  induction taken with
  | nil => rfl
  | cons c taken ih =>
    rw [List.cons_append, through_cons_of_ne level (none c List.mem_cons_self),
      ih fun d inside => none d (.tail c inside), Part.push_push]
    rfl

end Lexeme

namespace Lexer

open Machine Lexeme Lexeme.Quotation

variable {l : Lexer} {s : Scanner} {c : Char} {front taken rest text : List Char} {level : Nat}

section Signs

theorem byteLength_replicate (depth : Nat) : byteLength (List.replicate depth '=') = depth := by
  induction depth with
  | zero => rfl
  | succ depth ih =>
    rw [List.replicate_succ, byteLength_cons, ih, Nat.add_comm]
    rfl

/-- Behind some text and signs. -/
theorem isAt_behindEquals {p : Char → Bool} {depth : Nat} (bytewise : IsBytewise p)
    (h : s.Faces (front ++ (List.replicate depth '=' ++ rest))) :
    s.isAt p (byteLength front + depth) = rest.head?.any p := by
  rw [← List.append_assoc] at h
  rw [← h.isAt bytewise, byteLength_append, byteLength_replicate]

/-- The loop goes on behind the signs that have been counted. -/
theorem countWhile_from (depth : Nat)
    (h : s.Faces (front ++ (List.replicate depth '=' ++ rest))) :
    s.countWhile (· == '=') (byteLength front) depth =
      depth + (rest.takeWhile isEqualsSign).length := by
  induction rest generalizing depth with
  | nil =>
    rw [Scanner.countWhile, isAt_behindEquals (isBytewise_eq rfl) h]
    rfl
  | cons c rest ih =>
    rw [Scanner.countWhile, isAt_behindEquals (isBytewise_eq rfl) h, List.head?_cons,
      Option.any_some]
    change (if isEqualsSign c then _ else _) = _
    by_cases sign : isEqualsSign c
    · obtain rfl := isEqualsSign_iff.mp sign
      have more : List.replicate depth '=' ++ '=' :: rest =
          List.replicate (depth + 1) '=' ++ rest := by
        rw [List.replicate_succ', List.append_assoc, List.singleton_append]
      rw [more] at h
      rw [if_pos sign, ih _ h, List.takeWhile_cons_of_pos sign, List.length_cons, Nat.add_assoc,
        Nat.add_comm 1]
    · rw [if_neg sign, List.takeWhile_cons_of_neg sign]
      rfl

/-- The loop counts the signs that stand there. -/
theorem countSigns_eq {a : List Char} (h : s.Faces (a ++ rest)) :
    countSigns s (byteLength a) = (rest.takeWhile isEqualsSign).length := by
  rw [countSigns, countWhile_from 0 h, Nat.zero_add]

/-- Behind a bracket and its signs. -/
theorem isAt_behindSigns {bracket : Char} {p : Char → Bool} (h : s.Faces (bracket :: rest))
    (one : bracket.utf8Size = 1) (bytewise : IsBytewise p) :
    s.isAt p (1 + (rest.takeWhile isEqualsSign).length) =
      (rest.dropWhile isEqualsSign).head?.any p := by
  have split : bracket :: rest = [bracket] ++
      (List.replicate (rest.takeWhile isEqualsSign).length '=' ++ rest.dropWhile isEqualsSign) := by
    rw [← takeWhile_isEqualsSign, List.takeWhile_append_dropWhile, List.singleton_append]
  have length : byteLength [bracket] = 1 := by rw [byteLength_cons, one, byteLength_nil]
  rw [split] at h
  rw [← length, isAt_behindEquals bytewise h]

theorem bracketDepth?_eq (h : s.Faces text) : bracketDepth? s 0 = openingLevel? text := by
  rw [bracketDepth?, h.isAt_zero (isBytewise_eq rfl)]
  cases text with
  | nil => rfl
  | cons c text =>
    by_cases opens : c = '['
    · subst opens
      have signs := countSigns_eq (a := ['[']) h
      have second := isAt_behindSigns (p := (· == '[')) h rfl (isBytewise_eq rfl)
      rw [List.head?_cons, Option.any_some, beq_self_eq_true, if_pos rfl]
      change (if s.isAt (· == '[') (1 + countSigns s (byteLength ['['])) then
        some (countSigns s (byteLength ['['])) else none) = _
      rw [signs, second, openingLevel?]
      cases rest : text.dropWhile isEqualsSign with
      | nil => rfl
      | cons d rest =>
        by_cases again : d = '['
        · subst again
          rfl
        · have other : (d == '[') = false := beq_eq_false_iff_ne.mpr again
          rw [List.head?_cons, Option.any_some, other, if_neg Bool.false_ne_true]
          split
          · next same => exact absurd (List.cons.inj same).1 again
          · rfl
    · have other : (c == '[') = false := beq_eq_false_iff_ne.mpr opens
      rw [List.head?_cons, Option.any_some, other, if_neg Bool.false_ne_true, openingLevel?]
      intro s same
      exact opens (List.cons.inj same).1

end Signs

section Search

theorem bracketRound_eq (depth : Nat) (l : Lexer) : bracketRound depth l =
    if l.scanner.isPastEnd 0 then some (.ok (some false), l)
    else if l.scanner.isAt (· == ']') 0 then
      if countSigns l.scanner 1 == depth &&
          l.scanner.isAt (· == ']') (1 + countSigns l.scanner 1) then
        some (.ok (some true), { l with scanner := l.scanner.advanceBy (depth + 2) })
      else some (.ok none, { l with scanner := l.scanner.advance })
    else if l.scanner.isAt isLineBreak 0 then
      some (.ok none, { l with scanner := l.scanner.consumeLineEnd.2 })
    else some (.ok none, { l with scanner := l.scanner.advance }) := by
  rw [bracketRound]
  simp only [run_head, run_ite, run_scan, run_pure, run_consumeLineEnd]

/-- A search that has come to its end. -/
def searched (l : Lexer) (p : Part) : Option (Except ErrorRecord Bool × Lexer) :=
  some (.ok p.complete, l.moved p.taken)

theorem searched_push {p : Part} (clean : CutsClean taken p.taken) :
    (l.moved taken).searched p = l.searched (p.push taken) := by
  rw [searched, moved_append clean]
  rfl

theorem passesBytes_bracketRound (depth : Nat) : PassesBytes (bracketRound depth) := by
  intro l b others ahead outside
  rw [bracketRound_eq, Scanner.isPastEnd_of_drop ahead, Scanner.isAt_of_drop ahead,
    Scanner.isAt_of_drop ahead, test_ofUInt8_of_le (utf8Size_of_beq rfl) outside,
    test_ofUInt8_of_le (fun _ => utf8Size_of_isLineBreak) outside, Scanner.advance_of_drop ahead]
  rfl

/-- A character that neither closes nor ends a line is passed. -/
theorem closeBracket_char (depth : Nat) (h : l.Faces (c :: rest)) (inline : isLineBreak c = false)
    (other : c ≠ ']') : closeBracket depth l = closeBracket depth (l.moved [c]) := by
  apply loop_char (passesBytes_bracketRound depth) h inline
  intro one
  rw [bracketRound_eq, h.scanner.isPastEnd, h.scanner.isAt_zero (isBytewise_eq rfl),
    h.scanner.isAt_zero isBytewise_isLineBreak, h.advance one inline]
  simp [inline, other]

theorem closeBracket_lineEnd (depth : Nat) (h : l.Faces (c :: text)) (breaks : isLineBreak c) :
    ∃ taken rest, c :: text = taken ++ rest ∧ Scanner.IsLineEndBefore rest taken ∧
      closeBracket depth l = closeBracket depth (l.moved taken) := by
  obtain ⟨taken, rest, split, ends, moved⟩ := h.scanner.consumeLineEnd breaks
  have other : (c == ']') = false := by
    apply beq_eq_false_iff_ne.mpr
    rintro rfl
    contradiction
  have run : bracketRound depth l = some (.ok none, l.moved taken) := by
    rw [bracketRound_eq, h.scanner.isPastEnd, h.scanner.isAt_zero (isBytewise_eq rfl),
      h.scanner.isAt_zero isBytewise_isLineBreak, List.head?_cons, Option.any_some,
      Option.any_some, other, breaks, moved]
    rfl
  rw [split] at h
  exact ⟨taken, rest, split, ends, loop_next run (h.remaining_lt ends.ne_nil)⟩

/-- At a bracket the signs behind it are counted. If they are as many as wanted and another bracket
follows, the search is over; if not, only this bracket is passed. -/
theorem closeBracket_bracket (depth : Nat) (h : l.Faces (']' :: rest)) : closeBracket depth l =
    if (closing depth).isPrefixOf (']' :: rest) then
      some (.ok true, { l with scanner := l.scanner.advanceBy (depth + 2) })
    else closeBracket depth (l.moved [']']) := by
  have signs := countSigns_eq (a := [']']) h.scanner
  change countSigns l.scanner 1 = _ at signs
  have second := isAt_behindSigns (p := (· == ']')) h.scanner rfl (isBytewise_eq rfl)
  have run : bracketRound depth l = if (closing depth).isPrefixOf (']' :: rest) then
      some (.ok (some true), { l with scanner := l.scanner.advanceBy (depth + 2) })
      else some (.ok none, l.moved [']']) := by
    rw [bracketRound_eq, h.scanner.isPastEnd, h.scanner.isAt_zero (isBytewise_eq rfl),
      List.head?_cons, Option.any_some, signs, second, closing_isPrefixOf, h.advance rfl rfl]
    rfl
  split at run
  · next closes => rw [if_pos closes, closeBracket, loop_done run]
  · next other =>
    rw [if_neg other]
    exact loop_next run (h.remaining_lt (a := [']']) (List.cons_ne_nil _ _))

theorem ascii_of_mem_closing (h : c ∈ closing level) :
    c.utf8Size = 1 ∧ isLineBreak c = false := by
  simp only [closing, List.cons_append, List.mem_cons, List.mem_append, List.mem_replicate,
    List.not_mem_nil, or_false] at h
  rcases h with rfl | ⟨-, rfl⟩ | rfl <;> exact ⟨rfl, rfl⟩

theorem ascii_of_mem_opening (h : c ∈ opening level) :
    c.utf8Size = 1 ∧ isLineBreak c = false := by
  simp only [opening, List.cons_append, List.mem_cons, List.mem_append, List.mem_replicate,
    List.not_mem_nil, or_false] at h
  rcases h with rfl | ⟨-, rfl⟩ | rfl <;> exact ⟨rfl, rfl⟩

theorem length_closing (level : Nat) : (closing level).length = level + 2 := by
  simp [closing]

theorem length_opening (level : Nat) : (opening level).length = level + 2 := by
  simp [opening]

/-- The search of the loop is that for the first occurrence: where a search has failed, nothing can
close before the next bracket. The induction is on how much text is left. -/
theorem closeBracket_eq (level : Nat) (h : l.Faces text) :
    closeBracket level l = l.searched (through (closing level) text) := by
  induction size : text.length using Nat.strong_induction_on generalizing text l with
  | _ n ih =>
    subst size
    -- What was passed holds no closing bracket, and the search goes on behind it.
    have goOn {taken rest : List Char} (split : text = taken ++ rest) (some : taken ≠ [])
        (clean : CutsClean taken rest) :
        closeBracket level (l.moved taken) =
          l.searched ((through (closing level) rest).push taken) := by
      have less := length_lt_of_split split some
      rw [split] at h
      rw [ih _ less h.moved rfl, searched_push]
      have whole := text_through (closing level) rest
      rw [← whole] at clean
      exact clean.of_append_right
    cases text with
    | nil =>
      have run : bracketRound level l = some (.ok (some false), l) := by
        rw [bracketRound_eq, h.scanner.isPastEnd, List.isEmpty_nil, if_pos rfl]
      rw [closeBracket, loop_done run, through, searched, Part.missing, moved_nil]
    | cons c text =>
      by_cases bracket : c = ']'
      · subst bracket
        rw [closeBracket_bracket level h, through]
        split
        · next closes =>
          obtain ⟨behind, same⟩ := List.isPrefixOf_iff_prefix.mp closes
          rw [← same, List.take_left, List.drop_left, searched, ← length_closing level]
          rw [← same] at h
          rw [h.advanceBy_length (fun d inside => (ascii_of_mem_closing inside).1)
            fun d inside => (ascii_of_mem_closing inside).2]
        · exact goOn rfl (List.cons_ne_nil _ _) (.of_forall (by simp [isLineBreak]) _)
      by_cases breaks : isLineBreak c
      · obtain ⟨taken, rest, split, ends, run⟩ := closeBracket_lineEnd level h breaks
        have none : ∀ d ∈ taken, d ≠ ']' := by
          rintro d inside rfl
          exact absurd (ends.breaks ']' inside) Bool.false_ne_true
        rw [run, split, through_append level none]
        exact goOn split ends.ne_nil ends.clean
      · have inline := Bool.eq_false_iff.mpr breaks
        rw [closeBracket_char level h inline bracket, through_cons_of_ne level bracket]
        exact goOn rfl (List.cons_ne_nil _ _) (.of_forall (by simpa using inline) _)

/-- A long bracket that opens is read to where it closes, or to the end. -/
theorem readLongBracket_eq (h : l.Faces text) (opens : openingLevel? text = some level) :
    readLongBracket level l = l.searched (bracketed level text) := by
  obtain ⟨inside, rfl⟩ := openingLevel?_eq_some.mp opens
  have inline : ∀ c ∈ opening level, isLineBreak c = false :=
    fun c member => (ascii_of_mem_opening member).2
  rw [readLongBracket, run_scan, ← length_opening level,
    h.advanceBy_length (fun c member => (ascii_of_mem_opening member).1) inline,
    closeBracket_eq level h.moved, searched_push (.of_forall inline _), bracketed_append]

end Search

section Tokens

/-- A token of a bracket that closes, and an error if it does not. -/
theorem searched_bind {x : Action Bool} {p : Part} {kind : TokenKind} {fault : FaultRecord}
    (h : l.Faces text) (split : p.text = text) (run : x l = l.searched p) :
    (do if ← x then makeToken kind else fail fault) l = l.finishToken p kind fault := by
  have behind := h.behind split
  rw [bind_ok run, run_ite, finishToken]
  cases whole : p.complete with
  | true => rw [if_pos rfl, behind.makeToken, finish_of_complete whole]
  | false => rw [if_neg Bool.false_ne_true, behind.fail, finish_of_half whole]

theorem readLongString_eq (h : l.Faces ('[' :: text)) : readLongString l =
    match openingLevel? ('[' :: text) with
    | some level =>
      l.finishToken (bracketed level ('[' :: text)) .string (.unfinishedLongString l.scanner.line)
    | none => l.finishToken (brokenOpening ('[' :: text)) .string .invalidLongStringDelimiter := by
  rw [readLongString, run_head, bracketDepth?_eq h.scanner]
  cases opens : openingLevel? ('[' :: text) with
  | some level =>
    exact searched_bind h (text_bracketed level _) (readLongBracket_eq h opens)
  | none =>
    have behind := h.moved (a := ['['])
    have signs := IsInlineAscii.eq (c := '=') rfl rfl
    have stops := behind.behind (Part.text_run (· == '=') text)
    have inline : ∀ c ∈ ['['], isLineBreak c = false := by simp [isLineBreak]
    dsimp only
    rw [run_scan, h.advance rfl rfl, run_scan, behind.scanWhile signs.bytewise signs.inline]
    refine (stops.fail _).trans ?_
    rw [Part.run, moved_inline inline, finishToken, brokenOpening,
      finish_of_half (by simp [Part.require])]
    rfl

/-- What follows the two dashes of a comment. -/
theorem readComment_eq (h : l.Faces ('-' :: '-' :: text)) : readComment l =
    l.finishToken ((match openingLevel? text with
      | some level => bracketed level text
      | none => lineComment text).push ['-', '-']) .comment
      (.unfinishedLongComment l.scanner.line) := by
  have behind := h.moved (a := ['-', '-'])
  have inline : ∀ c ∈ ['-', '-'], isLineBreak c = false := by simp [isLineBreak]
  have advanced : { l with scanner := l.scanner.advanceBy 2 } = l.moved ['-', '-'] :=
    h.advanceBy_length (a := ['-', '-']) (by simp [Char.utf8Size]) inline
  have line : (l.moved ['-', '-']).scanner.line = l.scanner.line := by
    rw [moved, Scanner.passed_inline inline]
  rw [← finishToken_push (.of_forall inline _), readComment, run_scan, advanced, run_head,
    bracketDepth?_eq behind.scanner]
  cases opens : openingLevel? text with
  | some level =>
    rw [← line]
    exact searched_bind behind (text_bracketed level _) (readLongBracket_eq behind opens)
  | none =>
    have stops := behind.behind (text_lineComment text)
    have scanned : { l.moved ['-', '-'] with
        scanner := (l.moved ['-', '-']).scanner.scanUntil (·.holds 0 .lineBreak) } =
          (l.moved ['-', '-']).moved (lineComment text).taken :=
      congrArg (fun scanner => { l.moved ['-', '-'] with scanner })
        behind.scanner.scanUntil_lineBreak
    dsimp only
    rw [run_scan, scanned, finishToken, finish_of_complete rfl]
    exact stops.makeToken _

end Tokens

end Lexer
end LuaFrontend
