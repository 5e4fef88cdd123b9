import LuaFrontend.Proofs.TokenizerPieces

set_option autoImplicit false

namespace LuaFrontend

/-- The bytes of a part of a text, found by counting what stands before it. -/
theorem extract_toUTF8 {source : String} {before part behind : List Char}
    (h : source.toList = before ++ part ++ behind) :
    source.toUTF8.extract (byteLength before) (byteLength before + byteLength part) =
      (String.ofList part).toUTF8 := by
  have whole : source = String.ofList before ++ (String.ofList part ++ String.ofList behind) := by
    rw [← String.ofList_toList (s := source), h, List.append_assoc, String.ofList_append,
      String.ofList_append]
  have size (text : List Char) : byteLength text = (String.ofList text).toUTF8.size := by
    rw [← String.toList_ofList (l := text), byteLength_toList, String.toList_ofList]
    rfl
  subst whole
  simp only [size, String.toUTF8_eq_toByteArray, String.toByteArray_append]
  rw [← Nat.add_zero (String.ofList before).toByteArray.size, Nat.add_assoc, Nat.zero_add,
    ByteArray.extract_append_size_add, ByteArray.extract_append_eq_left rfl]

/-- A preamble is a byte order mark or nothing, and then a line that begins with `#!` up to its end,
or nothing where no such line begins. -/
structure IsPreamble (source mark line rest : List Char) : Prop where
  whole : source = mark ++ line ++ rest
  mark : mark = ['\uFEFF'] ∨ mark = [] ∧ source.head? ≠ some '\uFEFF'
  line : ['#', '!'] <+: line ∧ (∀ c ∈ line, !isLineBreak c) ∧ (∀ c ∈ rest.head?, isLineBreak c) ∨
    line = [] ∧ ¬ ['#', '!'] <+: rest

/-- The line for the shell, if there is one, is all that is passed behind the mark. -/
theorem isPreamble_of_mark (mark rest : List Char)
    (h : mark = ['\uFEFF'] ∨ mark = [] ∧ (mark ++ rest).head? ≠ some '\uFEFF') :
    ∃ line behind, (if ['#', '!'].isPrefixOf rest then mark ++ rest.takeWhile (!isLineBreak ·)
      else mark) = mark ++ line ∧ IsPreamble (mark ++ rest) mark line behind := by
  split
  · next begins =>
    obtain ⟨behind, rfl⟩ := List.isPrefixOf_iff_prefix.mp begins
    refine ⟨_, (['#', '!'] ++ behind).dropWhile (!isLineBreak ·), rfl, ?_, h, .inl ⟨?_, ?_, ?_⟩⟩
    · rw [List.append_assoc, List.takeWhile_append_dropWhile]
    · rw [List.takeWhile_append_of_pos (List.all_eq_true.mp rfl)]
      exact List.prefix_append _ _
    · intro c member
      simpa using List.mem_takeWhile_imp member
    · intro c first
      have stops := List.head?_dropWhile_not (!isLineBreak ·) (['#', '!'] ++ behind)
      rw [Option.mem_def.mp first] at stops
      simpa using stops
  · next begins =>
    refine ⟨[], rest, (List.append_nil mark).symm, ?_, h, .inr ⟨rfl, ?_⟩⟩
    · rw [List.append_nil]
    · rwa [List.isPrefixOf_iff_prefix] at begins

theorem exists_isPreamble (source : List Char) :
    ∃ mark line rest, preamble source = mark ++ line ∧ IsPreamble source mark line rest := by
  by_cases marked : source.head? = some '\uFEFF'
  · obtain ⟨rest, rfl⟩ := List.head?_eq_some_iff.mp marked
    obtain ⟨line, behind, same, is⟩ := isPreamble_of_mark _ rest (.inl rfl)
    exact ⟨_, line, behind, same, is⟩
  · obtain ⟨line, behind, same, is⟩ := isPreamble_of_mark [] source
      (.inr ⟨rfl, marked⟩)
    refine ⟨_, line, behind, ?_, is⟩
    rw [← same, preamble]
    have unmarked : (source.take 1).takeWhile (· == '\uFEFF') = [] := by
      cases source with
      | nil => rfl
      | cons c source => simpa using marked
    rw [unmarked]
    rfl

namespace Tokenizer

/-- The pieces that a tokenizer reads from the whole source, with the white space behind them. -/
structure IsPartition (dialect : Dialect) (source : String) (pieces : List Piece)
    (last : List Char) : Prop where
  whole : source.toList = preamble source.toList ++ pieces.flatMap Piece.text ++ last
  gaps : ∀ p ∈ pieces, ∀ c ∈ p.gap, c ∈ [' ', '\t', '\x0b', '\x0c', '\n', '\r']
  last : ∀ c ∈ last, c ∈ [' ', '\t', '\x0b', '\x0c', '\n', '\r']
  lexemes : ∀ p ∈ pieces, p.outcome.text ≠ ""
  /-- The call with some number gives the outcome of the piece with that number. -/
  outcomes : ∀ (number : Nat) (h : number < pieces.length),
    ((ofSource dialect source).after number).next.1 = pieces[number].outcome
  tokens : ∀ p ∈ pieces, ∀ t, p.outcome = .ok t → t.isEnd = false
  /-- Everything in front of a lexeme is counted in its span. -/
  starts : ∀ before p behind, pieces = before ++ p :: behind →
    p.outcome.span.start =
      byteLength (preamble source.toList ++ before.flatMap Piece.text ++ p.gap)
  bytes : ∀ p ∈ pieces,
    source.toUTF8.extract p.outcome.span.start p.outcome.span.stop = p.outcome.text.toUTF8
  characters : ∀ p ∈ pieces, ∀ e c, p.outcome = .error e → e.fault = .unexpectedCharacter c →
    e.near = String.singleton c

theorem ofSource_rest (dialect : Dialect) (source : String) :
    preamble source.toList ++ (ofSource dialect source).rest = source.toList := by
  obtain ⟨mark, line, rest, same, is⟩ := exists_isPreamble source.toList
  simp only [ofSource]
  rw [same, is.whole, List.drop_left]

theorem ofSource_offset (dialect : Dialect) (source : String) :
    (ofSource dialect source).here.offset = byteLength (preamble source.toList) := by
  simp only [ofSource, Position.offset_after, Nat.zero_add]

/-- The preamble, the pieces and what is left behind them are the whole source. -/
theorem toList_eq_pieces (dialect : Dialect) (source : String) (calls : Nat) :
    source.toList =
      preamble source.toList ++ (pieces calls (ofSource dialect source)).flatMap Piece.text ++
        ((ofSource dialect source).after (pieces calls (ofSource dialect source)).length).rest := by
  rw [List.append_assoc, ← rest_eq_pieces, ofSource_rest]

section Places

variable {dialect : Dialect} {source : String} {calls : Nat} {before behind : List Piece}
  {p : Piece}

/-- A lexeme starts behind everything in front of it. -/
theorem start_of_pieces (h : pieces calls (ofSource dialect source) = before ++ p :: behind) :
    p.outcome.span.start =
      byteLength (preamble source.toList ++ before.flatMap Piece.text ++ p.gap) := by
  obtain ⟨same, -⟩ := next_after_of_pieces h
  rw [same]
  change (Outcome.start ((ofSource dialect source).after before.length).next.1).offset = _
  rw [offset_start_next, offset_after_pieces h, ofSource_offset, byteLength_append,
    byteLength_append]

/-- The bytes in the span of a lexeme are its text. -/
theorem bytes_of_pieces (h : pieces calls (ofSource dialect source) = before ++ p :: behind) :
    source.toUTF8.extract p.outcome.span.start p.outcome.span.stop = p.outcome.text.toUTF8 := by
  have stop : p.outcome.span.stop =
      p.outcome.span.start + byteLength p.outcome.text.toList := by
    rw [byteLength_toList]
    rfl
  have around : source.toList =
      (preamble source.toList ++ before.flatMap Piece.text ++ p.gap) ++ p.outcome.text.toList ++
        (behind.flatMap Piece.text ++
          ((ofSource dialect source).after (before ++ p :: behind).length).rest) := by
    have whole := toList_eq_pieces dialect source calls
    rw [h] at whole
    refine whole.trans ?_
    simp only [List.flatMap_append, List.flatMap_cons, Piece.text, List.append_assoc]
  rw [stop, start_of_pieces h, extract_toUTF8 around, String.ofList_toList]

end Places

theorem isPartition_pieces (dialect : Dialect) (source : String) :
    let t := ofSource dialect source
    IsPartition dialect source (pieces t.rest.length t)
      (t.after (pieces t.rest.length t).length).rest where
  whole := toList_eq_pieces dialect source _
  gaps p member c inside := by
    obtain ⟨u, rfl, -⟩ := exists_piece_of_mem member
    exact mem_of_isSpace (isSpace_gap _ inside)
  last c inside :=
    mem_of_isSpace ((isDone_iff _).mp (isDone_after_pieces (Nat.le_refl _)) c inside)
  lexemes p member empty := by
    obtain ⟨u, rfl, more⟩ := exists_piece_of_mem member
    apply text_next_ne_nil more
    rw [show Outcome.text u.next.1 = "" from empty]
    rfl
  outcomes number inside := by
    have split := List.take_append_drop number
      (pieces (ofSource dialect source).rest.length (ofSource dialect source))
    rw [List.drop_eq_getElem_cons inside] at split
    obtain ⟨same, -⟩ := next_after_of_pieces split.symm
    rw [same, List.length_take, Nat.min_eq_left (Nat.le_of_lt inside)]
    rfl
  tokens p member token result := by
    obtain ⟨u, rfl, more⟩ := exists_piece_of_mem member
    exact isEnd_of_next more result
  starts _ _ _ := start_of_pieces
  bytes p member := by
    obtain ⟨before, behind, split⟩ := List.append_of_mem member
    exact bytes_of_pieces split
  characters p member e c result fault := by
    obtain ⟨u, rfl, -⟩ := exists_piece_of_mem member
    exact near_of_unexpected result fault

theorem length_le_byteLength_flatMap {pieces : List Piece}
    (h : ∀ p ∈ pieces, p.outcome.text ≠ "") :
    pieces.length ≤ byteLength (pieces.flatMap Piece.text) := by
  induction pieces with
  | nil => exact Nat.zero_le _
  | cons p pieces ih =>
    have others := ih fun q member => h q (List.mem_cons_of_mem p member)
    have positive : 0 < p.outcome.text.utf8ByteSize := by
      have nonempty := h p List.mem_cons_self
      rw [Nat.pos_iff_ne_zero]
      simpa using nonempty
    simp only [List.flatMap_cons, byteLength_append, Piece.text, byteLength_toList,
      List.length_cons]
    omega

/-- A tokenizer that is called on and on, whatever the calls give, cuts its source into the
preamble, white space and lexemes, without remainder. After at most as many calls as the source has
bytes, and one more, it has given the end token; from then on it gives the same token and does not
change. -/
theorem calls_partition_source (dialect : Dialect) (source : String) :
    ∃ (pieces : List Piece) (last : List Char) (final : Token),
      IsPartition dialect source pieces last ∧
      (∃ mark line rest, preamble source.toList = mark ++ line ∧
        IsPreamble source.toList mark line rest) ∧
      pieces.length ≤ source.utf8ByteSize ∧
      final.isEnd ∧ final.text = "" ∧
      final.span = ⟨source.utf8ByteSize, source.utf8ByteSize⟩ ∧
      ((ofSource dialect source).after pieces.length).next.1 = .ok final ∧
      ∀ number, pieces.length < number →
        ((ofSource dialect source).after number).next =
          (.ok final, (ofSource dialect source).after number) := by
  let t := ofSource dialect source
  let cut := pieces t.rest.length t
  have done : (t.after cut.length).isDone := isDone_after_pieces (Nat.le_refl _)
  have partition := isPartition_pieces dialect source
  refine ⟨cut, (t.after cut.length).rest, (t.after cut.length).endToken, partition,
    exists_isPreamble _, ?_, rfl, rfl, ?_, ?_, ?_⟩
  · have fits : cut.length ≤ _ := length_le_byteLength_flatMap partition.lexemes
    have size : byteLength source.toList = byteLength (preamble source.toList ++
        cut.flatMap Piece.text ++ (t.after cut.length).rest) := congrArg byteLength partition.whole
    rw [byteLength_toList, byteLength_append, byteLength_append] at size
    omega
  · have offset : (t.after cut.length).endToken.start.offset = source.utf8ByteSize := by
      have size := congrArg byteLength partition.whole
      rw [byteLength_toList, byteLength_append, byteLength_append] at size
      rw [text_endToken_isDone done,
        offset_after_pieces (show cut = cut ++ [] from (List.append_nil _).symm),
        ofSource_offset, size]
    simp only [Token.span, offset]
    rfl
  · rw [next_of_isDone done]
  · intro number late
    obtain ⟨further, rfl⟩ := Nat.exists_eq_add_of_lt late
    change (t.after _).next = _
    rw [Nat.add_assoc, after_add, after_isDone done, next_skipSpace_of_isDone done]

end Tokenizer

/-- Every item of a text takes a byte of it. -/
theorem Lexed.length_items_le (dialect : Dialect) (source : String) :
    (ofSource dialect source).items.length ≤ source.utf8ByteSize := by
  have partition := Tokenizer.isPartition_pieces dialect source
  have fits := Tokenizer.length_le_byteLength_flatMap partition.lexemes
  have size := congrArg byteLength partition.whole
  rw [byteLength_toList, byteLength_append, byteLength_append] at size
  rw [ofSource, Tokenizer.items_ofTokenizer, List.length_map]
  omega

end LuaFrontend
