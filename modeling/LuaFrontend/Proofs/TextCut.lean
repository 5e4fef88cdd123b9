import LuaFrontend.Proofs.FirstError
import LuaFrontend.Proofs.LexemeCut
import LuaFrontend.Proofs.TokenizerPartition

set_option autoImplicit false

namespace LuaFrontend

namespace Tokenizer

variable {t : Tokenizer}

/-- The tokenizer before a part of what it has left. -/
def upTo (t : Tokenizer) (front : List Char) : Tokenizer := { t with rest := front }

/-- White space is passed alike if a lexeme that begins behind it stays. -/
theorem skipSpace_upTo {lexeme last : List Char} (some : lexeme ≠ [])
    (h : t.skipSpace.rest = lexeme ++ last) (front : List Char) :
    (t.upTo (t.rest.takeWhile isSpace ++ (lexeme ++ front))).skipSpace =
      t.skipSpace.upTo (lexeme ++ front) := by
  obtain ⟨c, s, rfl⟩ := List.exists_cons_of_ne_nil some
  have head := List.head?_dropWhile_not isSpace t.rest
  rw [← rest_skipSpace, h] at head
  have noSpace : isSpace c = false := by simpa using head
  have spaces : ∀ d ∈ t.rest.takeWhile isSpace, isSpace d := fun d => List.mem_takeWhile_imp
  have none : ((c :: s) ++ front).takeWhile isSpace = [] :=
    List.takeWhile_cons_of_neg (by simp [noSpace])
  have all : ((c :: s) ++ front).dropWhile isSpace = (c :: s) ++ front :=
    List.dropWhile_cons_of_neg (by simp [noSpace])
  simp only [skipSpace, upTo, List.takeWhile_append_of_pos spaces,
    List.dropWhile_append_of_pos spaces, none, all, List.append_nil]

/-- A lexeme is taken alike if the text goes on to behind it. -/
theorem takeLexeme_upTo {front last : List Char} (rest : t.takeLexeme.2.rest = front ++ last) :
    (t.upTo ((Lexeme.read t.dialect t.rest).taken ++ front)).takeLexeme =
      (t.takeLexeme.1, t.takeLexeme.2.upTo front) := by
  have cut := Lexeme.read_cut t.dialect t.rest front last rest
  simp only [takeLexeme, upTo, cut]
  rfl

theorem next_upTo (h : t.isDone = false) {front last : List Char}
    (rest : t.next.2.rest = front ++ last) :
    (t.upTo (t.piece.text ++ front)).isDone = false ∧
      (t.upTo (t.piece.text ++ front)).next = (t.next.1, t.next.2.upTo front) := by
  have text : t.piece.text =
      t.rest.takeWhile isSpace ++ (Lexeme.read t.dialect t.skipSpace.rest).taken := by
    simp only [Piece.text, piece, next, text_takeLexeme]
    rfl
  have some : (Lexeme.read t.dialect t.skipSpace.rest).taken ≠ [] :=
    Lexeme.taken_read_ne_nil _ fun none => by simp [isDone, none] at h
  have skipped := skipSpace_upTo some (Lexeme.text_read t.dialect t.skipSpace.rest).symm front
  rw [text, List.append_assoc]
  constructor
  · rw [isDone, skipped]
    simp [upTo, some]
  · rw [next, skipped]
    exact takeLexeme_upTo rest

/-- Where a text is cut behind some of its items, or further behind, it has these items, and the
same tokenizer goes on behind them. -/
theorem remaining_upTo {before more : List Outcome}
    (all : (Lexed.remaining t).items = before ++ more) :
    ∃ front u, t.rest = front ++ u.rest ∧ u.here.offset = t.here.offset + byteLength front ∧
      (Lexed.remaining u).items = more ∧ ∀ back last, u.rest = back ++ last →
        (Lexed.remaining (t.upTo (front ++ back))).items =
          before ++ (Lexed.remaining (u.upTo back)).items := by
  induction before generalizing t with
  | nil => exact ⟨[], t, rfl, rfl, all, fun _ _ _ => rfl⟩
  | cons o before ih =>
    obtain ⟨some, rfl, others⟩ := Lexed.next_of_remaining all
    obtain ⟨front, u, rest, offset, behind, goesOn⟩ := ih others
    refine ⟨t.piece.text ++ front, u, ?_, ?_, behind, fun back last split => ?_⟩
    · rw [List.append_assoc, ← rest, ← rest_eq_piece]
    · rw [offset, offset_next, byteLength_append]
      omega
    · rw [split, ← List.append_assoc] at rest
      obtain ⟨stands, given⟩ := next_upTo some rest
      rw [List.append_assoc, Lexed.remaining_next stands, given, goesOn back last split]
      rfl

/-- In front of a lexeme the text has the same items if it ends where the lexeme begins. -/
theorem remaining_inFront {before more : List Outcome} {o : Outcome}
    (all : (Lexed.remaining t).items = before ++ o :: more) :
    ∃ front last, t.rest = front ++ last ∧ t.here.offset + byteLength front = o.span.start ∧
      (Lexed.remaining (t.upTo front)).items = before := by
  obtain ⟨front, u, rest, offset, others, goesOn⟩ := remaining_upTo all
  obtain ⟨-, rfl, -⟩ := Lexed.next_of_remaining others
  have split := @List.takeWhile_append_dropWhile _ isSpace u.rest
  refine ⟨front ++ u.rest.takeWhile isSpace, u.rest.dropWhile isSpace, ?_, ?_, ?_⟩
  · rw [List.append_assoc, split, rest]
  · rw [Outcome.span, start_next, Position.offset_after, offset, byteLength_append]
    exact (Nat.add_assoc _ _ _).symm
  · have spaces : (u.upTo (u.rest.takeWhile isSpace)).isDone :=
      (isDone_iff _).mpr fun c => List.mem_takeWhile_imp
    rw [goesOn _ _ split.symm, Lexed.remaining_of_isDone spaces, List.append_nil]

/-- Up to a lexeme the text has the same items if it ends where the lexeme does. -/
theorem remaining_behind {before more : List Outcome} {o : Outcome}
    (all : (Lexed.remaining t).items = before ++ o :: more) :
    ∃ front last, t.rest = front ++ last ∧ t.here.offset + byteLength front = o.span.stop ∧
      (Lexed.remaining (t.upTo front)).items = before ++ [o] := by
  obtain ⟨front, u, rest, offset, others, goesOn⟩ := remaining_upTo all
  obtain ⟨some, rfl, -⟩ := Lexed.next_of_remaining others
  have split : u.rest = u.piece.text ++ [] ++ u.next.2.rest := by
    rw [List.append_nil, ← rest_eq_piece]
  refine ⟨front ++ u.piece.text, u.next.2.rest, ?_, ?_, ?_⟩
  · rw [List.append_assoc, ← rest_eq_piece, rest]
  · rw [stop_span_next, offset_next, offset, byteLength_append]
    exact (Nat.add_assoc _ _ _).symm
  · obtain ⟨stands, given⟩ := next_upTo some (List.nil_append u.next.2.rest).symm
    have none : (u.next.2.upTo []).isDone := rfl
    have items := goesOn _ _ split
    rw [Lexed.remaining_next stands, given] at items
    simpa [Lexed.remaining_of_isDone none] using items

end Tokenizer

section Preambles

variable {source mark line rest front : List Char}

/-- A text has one preamble. -/
theorem IsPreamble.eq (h : IsPreamble source mark line rest) : preamble source = mark ++ line := by
  have passed : (source.take 1).takeWhile (· == '\uFEFF') = mark ∧
      source.drop mark.length = line ++ rest := by
    have whole := h.whole
    rcases h.mark with rfl | ⟨rfl, noMark⟩
    · subst whole
      exact ⟨rfl, rfl⟩
    · refine ⟨?_, by simpa using whole⟩
      cases source with
      | nil => rfl
      | cons c s => simpa using noMark
  rw [preamble, passed.1, passed.2]
  rcases h.line with ⟨begins, noBreak, ends⟩ | ⟨rfl, noShell⟩
  · have shell : ['#', '!'].isPrefixOf (line ++ rest) :=
      List.isPrefixOf_iff_prefix.mpr (begins.trans (List.prefix_append line rest))
    have stops : rest.takeWhile (!isLineBreak ·) = [] := by
      cases rest with
      | nil => rfl
      | cons c s => simpa using ends
    rw [if_pos shell, List.takeWhile_append_of_pos noBreak, stops, List.append_nil]
  · rw [List.nil_append, if_neg (by rwa [List.isPrefixOf_iff_prefix]), List.append_nil]

/-- A text that is cut behind its preamble has the same one. -/
theorem IsPreamble.cut (h : IsPreamble source mark line rest) (first : front <+: rest) :
    IsPreamble (mark ++ line ++ front) mark line front := by
  obtain ⟨behind, rfl⟩ := first
  have heads : ∀ c ∈ front.head?, c ∈ (front ++ behind).head? := fun c head => by
    rw [List.head?_append, Option.mem_def.mp head]
    rfl
  refine ⟨rfl, ?_, ?_⟩
  · refine h.mark.imp_right fun unmarked => ⟨unmarked.1, fun head => unmarked.2 ?_⟩
    rw [h.whole, ← List.append_assoc, List.head?_append, head]
    rfl
  · refine h.line.imp (fun ⟨begins, noBreak, ends⟩ => ⟨begins, noBreak, fun c head => ?_⟩)
      fun other => ⟨other.1, fun shell => other.2 (shell.trans ⟨behind, rfl⟩)⟩
    exact ends c (heads c head)

end Preambles

/-- The text is cut at the first byte of a lexeme. -/
def IsCutAt (source : String) (e : LexError) (cut : String) : Prop :=
  cut.toList <+: source.toList ∧ cut.utf8ByteSize = e.start.offset

/-- Two beginnings of one text that are as long as each other in bytes. -/
theorem eq_of_byteLength {first second whole : List Char} (h : first <+: whole)
    (g : second <+: whole) (same : byteLength first = byteLength second) : first = second := by
  induction whole generalizing first second with
  | nil => rw [List.prefix_nil.mp h, List.prefix_nil.mp g]
  | cons c whole ih =>
    have positive := c.utf8Size_pos
    cases first with
    | nil =>
      cases second with
      | nil => rfl
      | cons d second =>
        obtain ⟨rfl, -⟩ := List.cons_prefix_cons.mp g
        rw [byteLength_nil, byteLength_cons] at same
        omega
    | cons d first =>
      obtain ⟨rfl, front⟩ := List.cons_prefix_cons.mp h
      cases second with
      | nil =>
        rw [byteLength_nil, byteLength_cons] at same
        omega
      | cons b second =>
        obtain ⟨rfl, alsoFront⟩ := List.cons_prefix_cons.mp g
        rw [ih front alsoFront (Nat.add_left_cancel same)]

/-- A text that is cut behind its preamble is read from the same place. -/
theorem Tokenizer.ofSource_upTo {dialect : Dialect} {source cut : String} {front last : List Char}
    (isFront : cut.toList <+: source.toList) (rest : (ofSource dialect source).rest = front ++ last)
    (size : (ofSource dialect source).here.offset + byteLength front = cut.utf8ByteSize) :
    ofSource dialect cut = (ofSource dialect source).upTo front := by
  have whole := ofSource_rest dialect source
  obtain ⟨mark, line, behind, same, is⟩ := exists_isPreamble source.toList
  rw [ofSource_offset, ← byteLength_append] at size
  have text : cut.toList = preamble source.toList ++ front := by
    refine eq_of_byteLength isFront ⟨last, ?_⟩ ?_
    · rw [List.append_assoc, ← rest, whole]
    · rw [size, byteLength_toList]
  have passed : preamble cut.toList = preamble source.toList := by
    rw [text, same]
    refine (is.cut ⟨last, ?_⟩).eq
    have split := is.whole
    rw [← whole, same, rest] at split
    exact List.append_cancel_left split
  simp only [ofSource, upTo, passed]
  rw [text, List.drop_left]

section Items

variable {dialect : Dialect} {source cut : String} {front more : List Outcome} {o : Outcome}

/-- A text that is cut where a lexeme begins has the items in front of it. -/
theorem items_inFront (isFront : cut.toList <+: source.toList)
    (size : cut.utf8ByteSize = o.span.start)
    (all : (Lexed.ofSource dialect source).items = front ++ o :: more) :
    (Lexed.ofSource dialect cut).items = front := by
  obtain ⟨text, last, rest, offset, items⟩ := Tokenizer.remaining_inFront all
  rw [Lexed.ofSource, Tokenizer.ofSource_upTo isFront rest (offset.trans size.symm)]
  exact items

/-- A text can be cut where a lexeme ends. -/
theorem exists_cut_behind (all : (Lexed.ofSource dialect source).items = front ++ o :: more) :
    ∃ cut : String, cut.toList <+: source.toList ∧ cut.utf8ByteSize = o.span.stop := by
  obtain ⟨text, last, rest, offset, -⟩ := Tokenizer.remaining_behind all
  refine ⟨String.ofList (preamble source.toList ++ text), ⟨last, ?_⟩, ?_⟩
  · rw [String.toList_ofList, List.append_assoc, ← rest, Tokenizer.ofSource_rest]
  · rw [← byteLength_toList, String.toList_ofList, byteLength_append,
      ← Tokenizer.ofSource_offset dialect, offset]

/-- A text that is cut where a lexeme ends has the items up to it. -/
theorem items_behind (isFront : cut.toList <+: source.toList)
    (size : cut.utf8ByteSize = o.span.stop)
    (all : (Lexed.ofSource dialect source).items = front ++ o :: more) :
    (Lexed.ofSource dialect cut).items = front ++ [o] := by
  obtain ⟨text, last, rest, offset, items⟩ := Tokenizer.remaining_behind all
  rw [Lexed.ofSource, Tokenizer.ofSource_upTo isFront rest (offset.trans size.symm)]
  exact items

end Items

end LuaFrontend
