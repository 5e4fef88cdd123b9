import LuaFrontend.Proofs.LexerNumbers
import LuaFrontend.Proofs.QuotedStrings

set_option autoImplicit false

namespace LuaFrontend.Lexer

open Machine Lexeme Lexeme.Quotation

variable {α : Type} {l : Lexer} {c quote : Char} {taken rest text : List Char}

/-- What a lexeme comes to that is one part of the text ahead. -/
def finishToken (l : Lexer) (p : Part) (kind : TokenKind) (fault : FaultRecord) :
    Option (Except ErrorRecord TokenRecord × Lexer) :=
  l.finish p fault ((l.moved p.taken).token kind)

/-- A lexeme goes on behind something of it. -/
theorem finishToken_push {p : Part} {kind : TokenKind} {fault : FaultRecord}
    (clean : CutsClean taken p.taken) :
    (l.moved taken).finishToken p kind fault = l.finishToken (p.push taken) kind fault := by
  rw [finishToken, finish, finishToken, finish, moved_append clean]
  rfl

section Rounds

theorem stringRound_eq (quote : Char) (l : Lexer) : stringRound quote l =
    if l.scanner.isPastEnd 0 || l.scanner.isAt isLineBreak 0 then fail .unfinishedString l
    else if l.scanner.isAt (· == '\\') 0 then
      (do
        readEscape
        return none : Action (Option TokenRecord)) { l with scanner := l.scanner.advance }
    else if l.scanner.isAt (· == quote) 0 then
      (do return some (← makeToken .string) : Action (Option TokenRecord))
        { l with scanner := l.scanner.advance }
    else some (.ok none, { l with scanner := l.scanner.advance }) := by
  rw [stringRound]
  simp only [run_head, run_ite, run_scan, run_pure]

theorem passesBytes_stringRound (isQuote : IsQuote quote) : PassesBytes (stringRound quote) := by
  intro l b others ahead outside
  rw [stringRound_eq, Scanner.isPastEnd_of_drop ahead, Scanner.isAt_of_drop ahead,
    Scanner.isAt_of_drop ahead, Scanner.isAt_of_drop ahead,
    test_ofUInt8_of_le (fun _ => utf8Size_of_isLineBreak) outside,
    test_ofUInt8_of_le (utf8Size_of_beq rfl) outside,
    test_ofUInt8_of_le (utf8Size_of_beq isQuote.utf8Size) outside, Scanner.advance_of_drop ahead]
  rfl

/-- A character that means nothing to the string is passed. -/
theorem readStringRest_char (isQuote : IsQuote quote) (h : l.Faces (c :: rest))
    (inline : isLineBreak c = false) (noEscape : c ≠ '\\') (noQuote : c ≠ quote) :
    readStringRest quote l = readStringRest quote (l.moved [c]) := by
  apply loop_char (passesBytes_stringRound isQuote) h inline
  intro one
  rw [stringRound_eq, h.scanner.isPastEnd, h.scanner.isAt_zero isBytewise_isLineBreak,
    h.scanner.isAt_zero (isBytewise_eq rfl),
    h.scanner.isAt_zero (isBytewise_eq isQuote.utf8Size), h.advance one inline]
  simp [inline, noEscape, noQuote]

theorem stringRound_backslash (h : l.Faces ('\\' :: rest)) : stringRound quote l =
    (do
      readEscape
      return none : Action (Option TokenRecord)) (l.moved ['\\']) := by
  rw [stringRound_eq, h.scanner.isPastEnd, h.scanner.isAt_zero isBytewise_isLineBreak,
    h.scanner.isAt_zero (isBytewise_eq rfl), h.advance rfl rfl]
  rfl

/-- The string goes on behind what a backslash takes. -/
theorem readStringRest_backslash {next : Lexer} (h : l.Faces ('\\' :: rest))
    (run : readEscape (l.moved ['\\']) = some (.ok (), next))
    (less : next.remaining < l.remaining) :
    readStringRest quote l = readStringRest quote next := by
  refine loop_next ?_ less
  rw [stringRound_backslash h, bind_ok run, run_pure]

end Rounds

section Escapes

theorem readEscape_round (l : Lexer) : readEscape l =
    if l.scanner.isPastEnd 0 then fail .unfinishedString l
    else if l.scanner.consumeLineEnd.1 then
      some (.ok (), { l with scanner := l.scanner.consumeLineEnd.2 })
    else if l.scanner.consumeLineEnd.2.isAt (· == 'z') 0 then
      skipSpace { l with scanner := l.scanner.consumeLineEnd.2.advance }
    else some (.ok (), { l with scanner := l.scanner.consumeLineEnd.2.advance }) := by
  rw [readEscape]
  simp only [run_head, run_ite, run_scan, run_consumeLineEnd, run_pure]

theorem readEscape_lineEnd (h : l.Faces (c :: text)) (breaks : isLineBreak c) :
    ∃ taken rest, c :: text = taken ++ rest ∧ Scanner.IsLineEndBefore rest taken ∧
      readEscape l = some (.ok (), l.moved taken) := by
  obtain ⟨taken, rest, split, ends, moved⟩ := h.scanner.consumeLineEnd breaks
  refine ⟨taken, rest, split, ends, ?_⟩
  rw [readEscape_round, h.scanner.isPastEnd, moved]
  rfl

/-- Where no line ends, one byte is taken whatever it is. -/
theorem readEscape_byte (h : l.Faces (c :: text)) (inline : isLineBreak c = false) :
    readEscape l = if c == 'z' then skipSpace { l with scanner := l.scanner.advance }
      else some (.ok (), { l with scanner := l.scanner.advance }) := by
  rw [readEscape_round, h.scanner.isPastEnd, h.scanner.consumeLineEnd_none inline,
    h.scanner.isAt_zero (isBytewise_eq rfl)]
  rfl

/-- Behind `z` all white space is passed. -/
theorem readEscape_z (h : l.Faces ('z' :: text)) :
    readEscape l = some (.ok (), l.moved ('z' :: text.takeWhile isSpace)) := by
  have behind := h.moved (a := ['z'])
  rw [readEscape_byte h rfl, h.advance rfl rfl, beq_self_eq_true, if_pos rfl,
    skipSpace_eq behind, moved_inline (by simp [isLineBreak])]
  rfl

/-- An item behind a backslash is passed: the string goes on behind it. -/
structure PassesEscape (quote : Char) (l : Lexer) (text taken rest : List Char) : Prop where
  split : text = taken ++ rest
  ne_nil : taken ≠ []
  clean : CutsClean taken rest
  part : quotedRest quote false text = (quotedRest quote false rest).push taken
  run : readStringRest quote l = readStringRest quote (l.moved taken)

theorem quotedRest_escape (isQuote : IsQuote quote) (s : List Char) :
    quotedRest quote false ('\\' :: s) =
      match s with
      | [] => ⟨['\\'], [], false⟩
      | [a] => ⟨['\\', a], [], false⟩
      | a :: b :: s =>
        if isBreakPair a b then (quotedRest quote false s).push ['\\', a, b]
        else (quotedRest quote (a == 'z') (b :: s)).push ['\\', a] := by
  have noQuote : ('\\' == quote) = false := by
    rcases isQuote with rfl | rfl <;> rfl
  rw [quotedRest_cons, noQuote]
  rfl

theorem quotedRest_escape_inline (isQuote : IsQuote quote) (inline : isLineBreak c = false)
    (noSkip : c ≠ 'z') (s : List Char) :
    quotedRest quote false ('\\' :: c :: s) = (quotedRest quote false s).push ['\\', c] := by
  rw [quotedRest_escape isQuote]
  cases s with
  | nil => rfl
  | cons b s =>
    dsimp only
    rw [isBreakPair_eq_false_left inline, if_neg Bool.false_ne_true, beq_eq_false_iff_ne.mpr noSkip]

theorem quotedRest_escape_z (isQuote : IsQuote quote) (s : List Char) :
    quotedRest quote false ('\\' :: 'z' :: s) =
      (quotedRest quote false (s.dropWhile isSpace)).push ('\\' :: 'z' :: s.takeWhile isSpace) := by
  rw [quotedRest_escape isQuote]
  cases s with
  | nil => rfl
  | cons b s =>
    dsimp only
    rw [isBreakPair_eq_false_left rfl, if_neg Bool.false_ne_true, beq_self_eq_true, quotedRest_skipping,
      Part.push_push]
    rfl

theorem quotedRest_escape_lineEnd (isQuote : IsQuote quote)
    (ends : Scanner.IsLineEndBefore rest taken) :
    quotedRest quote false ('\\' :: (taken ++ rest)) =
      (quotedRest quote false rest).push ('\\' :: taken) := by
  rw [quotedRest_escape isQuote]
  cases ends with
  | pair pair =>
    dsimp only [List.cons_append, List.nil_append]
    rw [if_pos pair]
  | @single c breaks alone =>
    cases rest with
    | nil => rfl
    | cons b rest =>
      have noSkip : (c == 'z') = false := by
        apply beq_eq_false_iff_ne.mpr
        rintro rfl
        contradiction
      dsimp only [List.cons_append, List.nil_append]
      rw [alone b rfl, if_neg Bool.false_ne_true, noSkip]

/-- A backslash takes the byte behind it, and the other bytes of that character are passed behind
that. -/
theorem readStringRest_escape_byte (isQuote : IsQuote quote) (h : l.Faces ('\\' :: c :: text))
    (inline : isLineBreak c = false) (noSkip : c ≠ 'z') :
    readStringRest quote l = readStringRest quote (l.moved ['\\', c]) := by
  have behind := h.moved (a := ['\\'])
  have inlines : ∀ d ∈ ['\\'], isLineBreak d = false := by simp [isLineBreak]
  have first := readEscape_byte behind inline
  rw [beq_eq_false_iff_ne.mpr noSkip, if_neg Bool.false_ne_true] at first
  by_cases one : c.utf8Size = 1
  · rw [behind.advance one inline, moved_inline inlines] at first
    exact readStringRest_backslash h first
      (h.remaining_lt (a := ['\\', c]) (List.cons_ne_nil _ _))
  · obtain ⟨b, others, bytes⟩ := exists_utf8EncodeChar c
    have ahead := behind.scanner.bytes
    rw [Scanner.IsBefore, List.flatMap_cons, bytes, List.cons_append] at ahead
    have further : ((l.moved ['\\']).forward 1).scanner.source.toList.drop
        ((l.moved ['\\']).forward 1).scanner.position =
          others ++ text.flatMap String.utf8EncodeChar := by
      change (l.moved ['\\']).scanner.source.toList.drop
        ((l.moved ['\\']).scanner.position + 1) = _
      rw [← List.drop_drop, ahead]
      rfl
    have passed := loop_bytes (passesBytes_stringRound isQuote) further fun a member =>
      le_of_mem_utf8EncodeChar one (bytes ▸ .tail b member)
    have size := String.length_utf8EncodeChar c
    rw [bytes, List.length_cons] at size
    have there : l.scanner.position + 1 + 1 + others.length =
        l.scanner.position + byteLength ['\\', c] := by
      rw [byteLength_cons, byteLength_cons, byteLength_nil, ← size]
      change _ = _ + (1 + _)
      omega
    have less := (remaining_forward_lt ahead).trans
      (h.remaining_lt (a := ['\\']) (List.cons_ne_nil _ _))
    rw [Scanner.advance_of_drop ahead] at first
    rw [readStringRest_backslash h first less]
    refine passed.trans ?_
    rw [readStringRest, forward, forward, moved, moved, Scanner.passed_inline inlines,
      Scanner.passed_inline (by simpa [isLineBreak] using inline), ← there]
    rfl

theorem exists_passesEscape (isQuote : IsQuote quote) (h : l.Faces ('\\' :: c :: text)) :
    ∃ taken rest, PassesEscape quote l ('\\' :: c :: text) taken rest := by
  have behind := h.moved (a := ['\\'])
  have inlines : ∀ d ∈ ['\\'], isLineBreak d = false := by simp [isLineBreak]
  by_cases breaks : isLineBreak c
  · obtain ⟨taken, rest, split, ends, run⟩ := readEscape_lineEnd behind breaks
    have whole : '\\' :: c :: text = ('\\' :: taken) ++ rest := congrArg ('\\' :: ·) split
    refine ⟨'\\' :: taken, rest, whole, List.cons_ne_nil _ _, ?_, ?_, ?_⟩
    · exact (CutsClean.of_forall inlines _).append ends.clean
    · rw [split, quotedRest_escape_lineEnd isQuote ends]
    · rw [moved_inline inlines] at run
      exact readStringRest_backslash h run ((whole ▸ h).remaining_lt (List.cons_ne_nil _ _))
  by_cases skips : c = 'z'
  · subst skips
    have whole : '\\' :: 'z' :: text =
        ('\\' :: 'z' :: text.takeWhile isSpace) ++ text.dropWhile isSpace := by simp
    refine ⟨'\\' :: 'z' :: text.takeWhile isSpace, text.dropWhile isSpace, whole,
      List.cons_ne_nil _ _, ?_, ?_, ?_⟩
    · exact cutsClean_dropWhile_isSpace _ _
    · exact quotedRest_escape_z isQuote text
    · have run := readEscape_z behind
      rw [moved_inline inlines] at run
      exact readStringRest_backslash h run ((whole ▸ h).remaining_lt (List.cons_ne_nil _ _))
  · have inline := Bool.eq_false_iff.mpr breaks
    refine ⟨['\\', c], text, rfl, List.cons_ne_nil _ _, ?_, ?_, ?_⟩
    · exact .of_forall (by simpa [isLineBreak] using inline) _
    · exact quotedRest_escape_inline isQuote inline skips text
    · exact readStringRest_escape_byte isQuote h inline skips

/-- A string that ends with its backslash. -/
theorem readStringRest_dangling (isQuote : IsQuote quote) (h : l.Faces ['\\']) :
    readStringRest quote l =
      l.finishToken (quotedRest quote false ['\\']) .string .unfinishedString := by
  have behind := h.moved (a := ['\\'])
  have failed : readEscape (l.moved ['\\']) =
      some (.error ((l.moved ['\\']).report .unfinishedString), l.moved ['\\']) := by
    rw [readEscape_round, behind.scanner.isPastEnd, List.isEmpty_nil, if_pos rfl, behind.fail]
  have run : stringRound quote l =
      some (.error ((l.moved ['\\']).report .unfinishedString), l.moved ['\\']) := by
    rw [stringRound_backslash h, bind_error failed]
  rw [readStringRest, loop_error run, quotedRest_escape isQuote, finishToken, finish_of_half rfl]

end Escapes

section Ends

/-- Where the text or the line ends, the string is not finished. -/
theorem readStringRest_broken (h : l.Faces text)
    (ends : text.isEmpty || text.head?.any isLineBreak) :
    readStringRest quote l =
      l.finishToken (quotedRest quote false text) .string .unfinishedString := by
  have part : quotedRest quote false text = .missing text := by
    cases text with
    | nil => rfl
    | cons c text =>
      have breaks : isLineBreak c := ends
      rw [quotedRest_cons, Bool.false_and, if_neg Bool.false_ne_true, if_pos breaks]
  have run : stringRound quote l = some (.error (l.report .unfinishedString), l) := by
    rw [stringRound_eq, h.scanner.isPastEnd, h.scanner.isAt_zero isBytewise_isLineBreak,
      if_pos ends, h.fail]
  rw [readStringRest, loop_error run, part, finishToken, Part.missing, finish_of_half rfl,
    moved_nil]

theorem readStringRest_closed (isQuote : IsQuote quote) (h : l.Faces (quote :: rest)) :
    readStringRest quote l =
      l.finishToken (quotedRest quote false (quote :: rest)) .string .unfinishedString := by
  have inline : isLineBreak quote = false := by
    rcases isQuote with rfl | rfl <;> rfl
  have noEscape : (quote == '\\') = false := by
    rcases isQuote with rfl | rfl <;> rfl
  have part : quotedRest quote false (quote :: rest) = ⟨[quote], rest, true⟩ := by
    rw [quotedRest_cons, Bool.false_and, if_neg Bool.false_ne_true, inline,
      if_neg Bool.false_ne_true, beq_self_eq_true, if_pos rfl]
  have behind := h.moved (a := [quote])
  have run : stringRound quote l =
      some (.ok (some ((l.moved [quote]).token .string)), l.moved [quote]) := by
    rw [stringRound_eq, h.scanner.isPastEnd, h.scanner.isAt_zero isBytewise_isLineBreak,
      h.scanner.isAt_zero (isBytewise_eq rfl),
      h.scanner.isAt_zero (isBytewise_eq isQuote.utf8Size), h.advance isQuote.utf8Size inline,
      bind_ok (behind.makeToken .string)]
    simp [inline, noEscape]
  rw [readStringRest, loop_done run, part, finishToken, finish_of_complete rfl]

end Ends

/-- The loop over the bytes of a string reads what the recognizer of strings reads. The induction is
on how much text is left, since an escape may take several characters. -/
theorem readStringRest_eq (isQuote : IsQuote quote) (h : l.Faces text) :
    readStringRest quote l =
      l.finishToken (quotedRest quote false text) .string .unfinishedString := by
  induction size : text.length using Nat.strong_induction_on generalizing text l with
  | _ n ih =>
    subst size
    -- What was passed, and the rest of the string behind it.
    have goOn {taken rest : List Char} (split : text = taken ++ rest) (some : taken ≠ [])
        (clean : CutsClean taken rest) :
        readStringRest quote (l.moved taken) =
          l.finishToken ((quotedRest quote false rest).push taken) .string .unfinishedString := by
      have less := length_lt_of_split split some
      rw [split] at h
      rw [ih _ less h.moved rfl, finishToken_push]
      have whole := text_quotedRest quote false rest
      rw [← whole] at clean
      exact clean.of_append_right
    cases text with
    | nil => exact readStringRest_broken h rfl
    | cons c text =>
      by_cases breaks : isLineBreak c
      · exact readStringRest_broken h breaks
      by_cases closes : c = quote
      · subst closes
        exact readStringRest_closed isQuote h
      by_cases escapes : c = '\\'
      · subst escapes
        cases text with
        | nil => exact readStringRest_dangling isQuote h
        | cons a text =>
          obtain ⟨taken, rest, passes⟩ := exists_passesEscape isQuote h
          rw [passes.run, passes.part]
          exact goOn passes.split passes.ne_nil passes.clean
      · have inline := Bool.eq_false_iff.mpr breaks
        have part :
            quotedRest quote false (c :: text) = (quotedRest quote false text).push [c] := by
          rw [quotedRest_cons, Bool.false_and, if_neg Bool.false_ne_true, if_neg breaks,
            if_neg (by simpa using closes), if_neg (by simpa using escapes)]
        rw [readStringRest_char isQuote h inline escapes closes, part]
        exact goOn rfl (List.cons_ne_nil _ _) (.of_forall (by simpa using inline) _)

/-- A string from its opening quote on. -/
theorem readString_eq (isQuote : IsQuote quote) (h : l.Faces (quote :: text)) :
    readString quote l =
      l.finishToken (quoted (quote :: text)) .string .unfinishedString := by
  have inline : ∀ c ∈ [quote], isLineBreak c = false := by
    rcases isQuote with rfl | rfl <;> simp [isLineBreak]
  rw [readString, run_scan, h.advance isQuote.utf8Size (inline quote List.mem_cons_self),
    readStringRest_eq isQuote h.moved, finishToken_push (.of_forall inline _)]
  rfl

end LuaFrontend.Lexer
