import LuaFrontend.Proofs.EarlierFault
import LuaFrontend.Proofs.ParserScript

set_option autoImplicit false

namespace LuaFrontend

open LuaFrontend.Grammar
open LuaFrontend.Parser

/-- A text that begins with the same bytes as another begins with the same characters. -/
theorem isPrefix_of_extract {cut source other : String} (front : cut.toList <+: source.toList)
    (shared : other.toUTF8.extract 0 cut.utf8ByteSize = source.toUTF8.extract 0 cut.utf8ByteSize) :
    cut.toList <+: other.toList := by
  obtain ⟨behind, split⟩ := front
  have around : source.toList = [] ++ cut.toList ++ behind := split.symm
  have bytes := extract_toUTF8 around
  rw [byteLength_nil, Nat.zero_add, byteLength_toList, String.ofList_toList, ← shared] at bytes
  have size : cut.utf8ByteSize ≤ other.toUTF8.size := by
    have size := congrArg ByteArray.size bytes
    rw [ByteArray.size_extract, String.toUTF8_eq_toByteArray, String.toUTF8_eq_toByteArray,
      String.size_toByteArray, String.size_toByteArray] at size
    rw [String.toUTF8_eq_toByteArray, String.size_toByteArray]
    omega
  refine List.isPrefix_of_utf8Encode_append_eq_utf8Encode
    (other.toUTF8.extract cut.utf8ByteSize other.toUTF8.size) ?_
  rw [String.utf8Encode_toList, String.utf8Encode_toList, ← String.toUTF8_eq_toByteArray, ← bytes,
    ByteArray.extract_append_extract, Nat.zero_min, Nat.max_eq_right size,
    ByteArray.extract_zero_size, String.toUTF8_eq_toByteArray]

/-- Where no two outcomes begin at the same place, a sequence is split in one way at each place. -/
theorem split_unique {front behind taken rest : List Outcome} {o p : Outcome}
    (increase : (front ++ o :: behind).Pairwise fun o p => o.span.start < p.span.start)
    (same : front ++ o :: behind = taken ++ p :: rest) (start : o.span.start = p.span.start) :
    front = taken ∧ o = p ∧ behind = rest := by
  rcases List.append_eq_append_iff.mp same with ⟨between, rfl, split⟩ | ⟨between, rfl, split⟩
  · cases between with
    | nil => exact ⟨(List.append_nil _).symm, List.cons.inj split⟩
    | cons q between =>
      obtain ⟨rfl, rfl⟩ := List.cons.inj split
      have later := (List.pairwise_cons.mp (List.pairwise_append.mp increase).2.1).1 p (by simp)
      omega
  · cases between with
    | nil => exact ⟨List.append_nil _, (List.cons.inj split).1.symm, (List.cons.inj split).2.symm⟩
    | cons q between =>
      obtain ⟨rfl, rfl⟩ := List.cons.inj split
      have later := (List.pairwise_append.mp increase).2.2 p (by simp) o List.mem_cons_self
      omega

section Items

variable {dialect : Dialect} {source : String}

/-- What the grammar sees before the end comes from the items of the text. -/
theorem Lexed.exists_items {front behind : List Outcome} {u : Token}
    (seen : (ofSource dialect source).seen = front ++ .ok u :: behind) (more : u.isEnd = false) :
    ∃ before others, (ofSource dialect source).items = before ++ .ok u :: others ∧
      before.filter Outcome.isSignificant = front ∧ Outcome.isSignificant (.ok u) := by
  obtain ⟨inside, split⟩ : ∃ inside,
      (ofSource dialect source).items.filter Outcome.isSignificant = front ++ .ok u :: inside := by
    rcases List.eq_nil_or_concat' behind with rfl | ⟨inside, last, rfl⟩
    · have last := Except.ok.inj (List.cons.inj (List.append_inj' seen rfl).2).1
      rw [← last, isEnd_final dialect source] at more
      cases more
    · rw [← List.cons_append, ← List.append_assoc] at seen
      exact ⟨inside, (List.append_inj' seen rfl).1⟩
  obtain ⟨first, second, items, isFront, rest⟩ := List.filter_eq_append_iff.mp split
  obtain ⟨aside, others, rfl, noneSeen, shown, -⟩ := List.filter_eq_cons_iff.mp rest
  refine ⟨first ++ aside, others, by rw [items, List.append_assoc], ?_, shown⟩
  rw [List.filter_append, isFront, List.filter_eq_nil_iff.mpr noneSeen, List.append_nil]

variable {other : String} {u v : Token}

/-- Two texts with a token that ends at the same place have the same items up to that, if their
bytes are the same up to there. -/
theorem Lexed.items_of_shared {before others front more : List Outcome}
    (items : (ofSource dialect source).items = before ++ .ok u :: others)
    (alsoItems : (ofSource dialect other).items = front ++ .ok v :: more)
    (same : v.span.stop = u.span.stop)
    (shared : other.toUTF8.extract 0 u.span.stop = source.toUTF8.extract 0 u.span.stop) :
    front = before ∧ v = u := by
  obtain ⟨cut, isFront, size⟩ := exists_cut_behind items
  have size : cut.utf8ByteSize = u.span.stop := size
  rw [← size] at shared
  have up := @items_behind _ _ _ _ _ (.ok u) isFront size items
  have alsoUp := @items_behind _ _ _ _ _ (.ok v) (isPrefix_of_extract isFront shared)
    (size.trans same.symm) alsoItems
  obtain ⟨fronts, ends⟩ := List.append_inj' (alsoUp.symm.trans up) rfl
  exact ⟨fronts, Except.ok.inj (List.cons.inj ends).1⟩

/-- The end token is at the end of the text and has none itself. -/
theorem Lexed.span_final (dialect : Dialect) (source : String) :
    (ofSource dialect source).final.span = ⟨source.utf8ByteSize, source.utf8ByteSize⟩ := by
  have text : (ofSource dialect source).final.text = "" := by
    rw [ofSource, Tokenizer.final_ofTokenizer]
    rfl
  have offset : (ofSource dialect source).final.start.offset = source.utf8ByteSize := by
    rw [show (ofSource dialect source).final = (remaining (Tokenizer.ofSource dialect source)).final
      from rfl, offset_final_remaining, Tokenizer.ofSource_offset, ← byteLength_append,
      Tokenizer.ofSource_rest, byteLength_toList]
  rw [Token.span, text, offset]
  rfl

/-- Before the end nothing is empty. -/
theorem Lexed.eq_final_of_empty (seen : .ok u ∈ (ofSource dialect source).seen)
    (empty : u.span.stop = u.span.start) : u = (ofSource dialect source).final := by
  rcases List.mem_append.mp seen with inside | last
  · obtain ⟨t, more, result⟩ := mem_items dialect source (List.mem_filter.mp inside).1
    have filled := Tokenizer.length_span_next more
    rw [result] at filled
    exact absurd (show u.span.start < u.span.stop from filled) (by omega)
  · exact Except.ok.inj (List.mem_singleton.mp last)

theorem Lexed.eq_final_of_isEnd (seen : .ok u ∈ (ofSource dialect source).seen) (last : u.isEnd) :
    u = (ofSource dialect source).final := by
  rcases List.mem_append.mp seen with inside | final
  · rw [isEnd_of_mem_items dialect source (List.mem_filter.mp inside).1] at last
    cases last
  · exact Except.ok.inj (List.mem_singleton.mp final)

/-- A text that ends where another one does, after the same bytes, is that one. -/
theorem eq_of_shared_end (seen : .ok u ∈ (Lexed.ofSource dialect source).seen) (last : u.isEnd)
    (alsoSeen : .ok v ∈ (Lexed.ofSource dialect other).seen) (same : v.span = u.span)
    (shared : other.toUTF8.extract 0 u.span.stop = source.toUTF8.extract 0 u.span.stop) :
    other = source := by
  obtain rfl := Lexed.eq_final_of_isEnd seen last
  have ends := Lexed.span_final dialect source
  obtain rfl := Lexed.eq_final_of_empty alsoSeen (by rw [same, ends])
  have size : other.utf8ByteSize = source.utf8ByteSize := by
    rw [ends, Lexed.span_final] at same
    exact congrArg Span.stop same
  have whole (s : String) : s.toUTF8.extract 0 s.utf8ByteSize = s.toUTF8 := by
    rw [String.toUTF8_eq_toByteArray, ← String.size_toByteArray, ByteArray.extract_zero_size]
  have stop : (Lexed.ofSource dialect source).final.span.stop = source.utf8ByteSize := by rw [ends]
  rw [stop, whole, ← size, whole] at shared
  exact String.toByteArray_inj.mp shared

/-- In another text with a token in the place of this one, and the same bytes up to its end, the
grammar meets the same tokens up to it. -/
theorem exists_faces_of_shared {front : List Token} {behind : List Outcome} (some : front ≠ [])
    (seen : (Lexed.ofSource dialect source).seen = front.map .ok ++ .ok u :: behind)
    (more : u.isEnd = false) (alsoSeen : .ok v ∈ (Lexed.ofSource dialect other).seen)
    (same : v.span = u.span)
    (shared : other.toUTF8.extract 0 u.span.stop = source.toUTF8.extract 0 u.span.stop) :
    ∃ d rest, Cursor.ofSource dialect other = .ok d ∧
      d.Faces dialect (front.map .ok ++ .ok u :: rest) := by
  obtain ⟨before, others, items, isFront, isShown⟩ := Lexed.exists_items seen more
  obtain ⟨ahead, later, alsoSplit⟩ := List.append_of_mem alsoSeen
  have alsoMore : v.isEnd = false := by
    by_contra final
    have last := Lexed.eq_final_of_isEnd alsoSeen (Bool.eq_true_of_not_eq_false final)
    have empty : u.span.stop = u.span.start := by
      rw [← same, last, Lexed.span_final]
    have member : .ok u ∈ (Lexed.ofSource dialect source).seen := by simp [seen]
    rw [Lexed.eq_final_of_empty member empty, Lexed.isEnd_final] at more
    cases more
  obtain ⟨alsoBefore, rest, alsoItems, -⟩ := Lexed.exists_items alsoSplit alsoMore
  obtain ⟨rfl, rfl⟩ := Lexed.items_of_shared items alsoItems (congrArg Span.stop same) shared
  obtain ⟨tokens, rfl, rfl, -⟩ := eq_map_ok_of_filter isFront
  obtain ⟨d, opened, faces⟩ := exists_faces_of_items alsoItems some
  rw [List.filter_cons_of_pos isShown] at faces
  exact ⟨d, _, opened, faces⟩

end Items

section Texts

variable {options : Options} {source other : String} {x : SyntaxError}

/-- A text is refused at a token for what is in front of it, whatever is behind the next one. -/
theorem refuses_of_refused {front behind : List Outcome} {t : Token}
    (refused : parse options source = .error (.grammatical x))
    (seen : (Lexed.ofSource options.toDialect source).seen = front ++ .ok t :: behind)
    (located : x.position = t.start) :
    ∃ taken : List Token, front = taken.map .ok ∧ .grammatical x = x.fault.report t behind ∧
      Refuses options.toDialect (chunk options.maxDepth) x.fault taken t behind := by
  obtain ⟨c, e, opened, run⟩ := parse_refused refused
  obtain ⟨taken, w, rest, view, report, refuses⟩ :=
    refuses_of_chunk (Cursor.isLegible_ofSource opened) run
  obtain ⟨upcoming, -⟩ := ofSource_view opened
  have increase := Lexed.starts_of_seen_increase options.toDialect source
  rw [seen] at increase
  have start : (Outcome.span (.ok t)).start = (Outcome.span (.ok w)).start := by
    change t.start.offset = w.start.offset
    rw [← located, position_of_report report]
  obtain ⟨rfl, here, rfl⟩ := split_unique increase (seen.symm.trans (upcoming.symm.trans view)) start
  obtain rfl := Except.ok.inj here
  exact ⟨taken, rfl, report, refuses⟩

/-- The end token is not followed by another one, so that any other one stands behind its token. -/
theorem Lexed.exists_behind {dialect : Dialect} {front behind : List Outcome} {t u : Token}
    (seen : (ofSource dialect source).seen = front ++ .ok t :: behind)
    (following : behind.headD (.ok t) = .ok u) (more : u.isEnd = false) :
    ∃ others, behind = .ok u :: others := by
  cases behind with
  | nil =>
    obtain rfl := Except.ok.inj following
    have final := Except.ok.inj (List.cons.inj (List.append_inj' seen rfl).2).1
    rw [← final, isEnd_final] at more
    cases more
  | cons o others => exact ⟨others, by rw [← following]; rfl⟩

/-- The error at a token is that of every text with the same bytes up to the end of the next token,
or of this one if it is the last, and with a token there. -/
theorem error_of_shared {front behind : List Outcome} {t u v : Token}
    (refused : parse options source = .error (.grammatical x))
    (seen : (Lexed.ofSource options.toDialect source).seen = front ++ .ok t :: behind)
    (located : x.position = t.start) (following : behind.headD (.ok t) = .ok u)
    (shared : other.toUTF8.extract 0 u.span.stop = source.toUTF8.extract 0 u.span.stop)
    (alsoSeen : .ok v ∈ (Lexed.ofSource options.toDialect other).seen) (same : v.span = u.span) :
    parse options other = .error (.grammatical x) := by
  have member : .ok u ∈ (Lexed.ofSource options.toDialect source).seen := by
    cases behind <;> simp [seen, ← following]
  by_cases last : u.isEnd
  · obtain rfl := eq_of_shared_end member last alsoSeen same shared
    exact refused
  have more : u.isEnd = false := Bool.eq_false_iff.mpr last
  obtain ⟨behind, rfl⟩ := Lexed.exists_behind seen following more
  obtain ⟨taken, rfl, report, refuses⟩ := refuses_of_refused refused seen located
  have split : (Lexed.ofSource options.toDialect source).seen =
      (taken ++ [t]).map .ok ++ .ok u :: behind := by
    simp [seen]
  obtain ⟨d, rest, alsoOpened, faces⟩ :=
    exists_faces_of_shared (by simp) split more alsoSeen same shared
  rw [List.map_append, List.append_assoc] at faces
  obtain ⟨y, f, failed, repeats⟩ := refuses faces fun _ => .inl rfl
  have report : y = .grammatical x := by
    rcases repeats with again | ⟨-, e, found, -⟩
    · exact again.trans (SyntaxFault.report_of_next.trans report.symm)
    · cases found
  exact parse_of_chunk_error alsoOpened (report ▸ failed)

/-- One token is all that is read ahead. In every state in which a program is read at most one token
behind the current one is buffered, so that errors are local: what a text is refused for at a token,
every text is refused for that has the same bytes up to the end of the next token, or of this one if
it is the end token, and has a token in its place. -/
theorem one_token_is_read_ahead (options : Options) (source : String) :
    (∃ script : Script Chunk, script.run = chunk options.maxDepth ∧
      ∀ {c}, Cursor.ofSource options.toDialect source = .ok c →
        ∀ d ∈ script.states c, d.buffered ≤ d.index + 2) ∧
    ∀ {other : String} {x : SyntaxError} {front behind : List Outcome} {t u v : Token},
      parse options source = .error (.grammatical x) →
      (Lexed.ofSource options.toDialect source).seen = front ++ .ok t :: behind →
      x.position = t.start → behind.headD (.ok t) = .ok u →
      other.toUTF8.extract 0 u.span.stop = source.toUTF8.extract 0 u.span.stop →
      .ok v ∈ (Lexed.ofSource options.toDialect other).seen → v.span = u.span →
        parse options other = .error (.grammatical x) := by
  obtain ⟨script, same, near⟩ := exists_script_of_chunk options.maxDepth
  exact ⟨⟨script, same, near⟩, error_of_shared⟩

/-- A bracket that closes nothing is quoted with the sign behind it, even before a faulty lexeme. -/
theorem bracket_is_refused_before_any_text :
    parse .forParser "x ) ='a" =
      .error (.grammatical ⟨.unexpected .symbol ")", ⟨2, 1, 0⟩, "="⟩) := by
  have refused : parse .forParser "x ) = y" =
      .error (.grammatical ⟨.unexpected .symbol ")", ⟨2, 1, 0⟩, "="⟩) := rfl
  have seen : (Lexed.ofSource Options.forParser.toDialect "x ) = y").seen =
      [.ok ⟨.identifier, "x", ⟨0, 1, 0⟩⟩] ++ .ok ⟨.symbol, ")", ⟨2, 1, 0⟩⟩ ::
        [.ok ⟨.symbol, "=", ⟨4, 1, 0⟩⟩, .ok ⟨.identifier, "y", ⟨6, 1, 0⟩⟩,
          .ok ⟨.endOfInput, "", ⟨7, 1, 0⟩⟩] := by decide +kernel
  have shared : "x ) ='a".toUTF8.extract 0 5 = "x ) = y".toUTF8.extract 0 5 := by decide +kernel
  have alsoSeen : .ok ⟨.symbol, "=", ⟨4, 1, 0⟩⟩ ∈
      (Lexed.ofSource Options.forParser.toDialect "x ) ='a").seen := by decide +kernel
  exact (one_token_is_read_ahead .forParser "x ) = y").2 refused seen rfl rfl shared alsoSeen rfl

/-- A sign that goes on makes another token, and another error. -/
example : parse .forParser "x ) ==" =
    .error (.grammatical ⟨.unexpected .symbol ")", ⟨2, 1, 0⟩, "=="⟩) := rfl

end Texts

end LuaFrontend
