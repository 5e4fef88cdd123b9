import LuaFrontend.Proofs.LexerCalls

set_option autoImplicit false

namespace LuaFrontend

namespace Lexer

/-- White space, the lexeme behind it, and what the call gave that took both. -/
structure Piece where
  gap : List Char
  lexeme : List Char
  result : Except ErrorRecord TokenRecord

/-- The characters of a piece. -/
def Piece.text (p : Piece) : List Char := p.gap ++ p.lexeme

/-- What is kept of a lexeme whose first byte has this offset: its own text and, of a token, its own
bytes. An unexpected character is the whole lexeme. -/
inductive Keeps (lexeme : List Char) (start : Nat) : Except ErrorRecord TokenRecord → Prop
  | token (t : TokenRecord) (text : t.text = String.ofList lexeme)
    (span : t.span = ⟨start, start + byteLength lexeme⟩) (more : t.kind ≠ .endOfInput) :
    Keeps lexeme start (.ok t)
  | error (e : ErrorRecord) (near : e.near = String.ofList lexeme)
    (character : ∀ c, e.fault = .unexpectedCharacter c → lexeme = [c]) :
    Keeps lexeme start (.error e)

/-- The pieces that a lexer takes from the whole source, with the white space behind them. -/
structure IsPartition (dialect : Dialect) (source : String) (pieces : List Piece)
    (last : List Char) : Prop where
  whole : source.toList = preamble source.toList ++ pieces.flatMap Piece.text ++ last
  gaps : ∀ p ∈ pieces, ∀ c ∈ p.gap, c ∈ [' ', '\t', '\x0b', '\x0c', '\n', '\r']
  last : ∀ c ∈ last, c ∈ [' ', '\t', '\x0b', '\x0c', '\n', '\r']
  lexemes : ∀ p ∈ pieces, p.lexeme ≠ []
  /-- The call for a piece marks where its lexeme begins and stops where it ends. -/
  calls : ∀ before p behind, pieces = before ++ p :: behind →
    let start := byteLength (preamble source.toList ++ before.flatMap Piece.text ++ p.gap)
    Keeps p.lexeme start p.result ∧
      source.toUTF8.extract start (start + byteLength p.lexeme) =
        (String.ofList p.lexeme).toUTF8 ∧
      ∃ l, Lexer.calls (before.length + 1) (ofSource dialect source) =
          some ((before ++ [p]).map Piece.result, l) ∧
        l.scanner.captured = ⟨start, start + byteLength p.lexeme⟩

/-- What a lexer takes where a tokenizer takes this piece. -/
def Piece.ofOutcome (p : LuaFrontend.Piece) : Piece :=
  ⟨p.gap, p.outcome.text.toList, p.outcome.record⟩

section Pieces

variable {dialect : Dialect} {source : String} {l : Lexer} {t : Tokenizer} {o : Outcome}
  {pieces before behind : List LuaFrontend.Piece} {p : LuaFrontend.Piece} {last : List Char}

theorem flatMap_ofOutcome (pieces : List LuaFrontend.Piece) :
    (pieces.map Piece.ofOutcome).flatMap Piece.text = pieces.flatMap LuaFrontend.Piece.text := by
  rw [List.flatMap_map]
  rfl

/-- A lexer has captured the bytes of what it gives. -/
theorem captured_behind (h : l.Follows t) :
    (l.behind t).scanner.captured = Outcome.span t.next.1 := by
  have start : (l.behind t).scanner.mark = (Outcome.start t.next.1).offset := by
    rw [Tokenizer.start_next, ← Tokenizer.here_skipSpace, ← h.skipSpace.here]
    rfl
  have stop : (l.behind t).scanner.position =
      (Outcome.start t.next.1).offset + (Outcome.text t.next.1).utf8ByteSize := by
    rw [← byteLength_toList, ← Position.offset_after, ← Tokenizer.here_next, ← h.behind.here]
    rfl
  rw [Scanner.captured, start, stop]
  rfl

theorem keeps_record (token : ∀ t, o = .ok t → t.isEnd = false)
    (character : ∀ e c, o = .error e → e.fault = .unexpectedCharacter c →
      e.near = String.singleton c) :
    Keeps o.text.toList o.span.start o.record := by
  have text : o.text = String.ofList o.text.toList := String.ofList_toList.symm
  cases o with
  | ok t =>
    apply Keeps.token t.record text
    · rw [byteLength_toList]
      rfl
    · change t.kind ≠ .endOfInput
      exact beq_eq_false_iff_ne.mp (token t rfl)
  | error e =>
    apply Keeps.error e.record text
    intro c fault
    have same : e.fault = .unexpectedCharacter c := by
      cases known : e.fault with
      | unexpectedCharacter d =>
        rw [LexError.record, known] at fault
        exact congrArg Fault.unexpectedCharacter (FaultRecord.unexpectedCharacter.inj fault)
      | _ =>
        rw [LexError.record, known] at fault
        cases fault
    change e.near.toList = [c]
    rw [character e c rfl same, String.toList_singleton]

/-- What the first calls give are the outcomes of the first pieces. -/
theorem results_eq_take (h : Tokenizer.IsPartition dialect source pieces last) {number : Nat}
    (inside : number ≤ pieces.length) : (Tokenizer.ofSource dialect source).results number =
      (pieces.take number).map LuaFrontend.Piece.outcome := by
  apply List.ext_getElem
  · rw [Tokenizer.results, List.length_map, List.length_range, List.length_map, List.length_take,
      Nat.min_eq_left inside]
  · intro index before behind
    rw [Tokenizer.results, List.length_map, List.length_range] at before
    simp only [Tokenizer.results, List.getElem_map, List.getElem_range, List.getElem_take]
    exact h.outcomes index (by omega)

/-- The call for a piece, after those for the pieces before it. -/
theorem calls_of_piece (h : Tokenizer.IsPartition dialect source pieces last)
    (split : pieces = before ++ p :: behind) : ∃ l,
      Lexer.calls (before.length + 1) (ofSource dialect source) =
        some (((before ++ [p]).map Piece.ofOutcome).map Piece.result, l) ∧
      l.scanner.captured = p.outcome.span := by
  have inside : before.length < pieces.length := by
    rw [split, List.length_append, List.length_cons]
    omega
  obtain ⟨m, follows, -, run⟩ := (awaits_ofSource dialect source).calls_succ before.length
  have same : ((Tokenizer.ofSource dialect source).after before.length).next.1 = p.outcome := by
    rw [h.outcomes _ inside]
    simp [split]
  have front : pieces.take (before.length + 1) = before ++ [p] := by
    rw [split, List.take_length_add_append]
    rfl
  refine ⟨_, ?_, same ▸ captured_behind follows⟩
  rw [run, results_eq_take h inside, front, List.map_map, List.map_map]
  rfl

theorem isPartition_ofOutcome (h : Tokenizer.IsPartition dialect source pieces last) :
    IsPartition dialect source (pieces.map Piece.ofOutcome) last where
  whole := by
    rw [flatMap_ofOutcome]
    exact h.whole
  gaps p member c inside := by
    obtain ⟨q, isPiece, rfl⟩ := List.mem_map.mp member
    exact h.gaps q isPiece c inside
  last := h.last
  lexemes p member empty := by
    obtain ⟨q, isPiece, rfl⟩ := List.mem_map.mp member
    exact h.lexemes q isPiece (String.toList_eq_nil_iff.mp empty)
  calls before p behind split := by
    obtain ⟨before, rest, rfl, rfl, same⟩ := List.map_eq_append_iff.mp split
    obtain ⟨p, behind, rfl, rfl, rfl⟩ := List.map_eq_cons_iff.mp same
    have start : byteLength (preamble source.toList ++
        before.flatMap LuaFrontend.Piece.text ++ (Piece.ofOutcome p).gap) =
          p.outcome.span.start := (h.starts before p behind rfl).symm
    have member : p ∈ before ++ p :: behind := List.mem_append_right _ List.mem_cons_self
    have length : byteLength (Piece.ofOutcome p).lexeme = p.outcome.text.utf8ByteSize :=
      byteLength_toList _
    obtain ⟨l, run, captured⟩ := calls_of_piece h rfl
    dsimp only
    rw [flatMap_ofOutcome, length, start]
    refine ⟨keeps_record (h.tokens p member) (h.characters p member), ?_, l, ?_, captured⟩
    · rw [show (Piece.ofOutcome p).lexeme = p.outcome.text.toList from rfl, String.ofList_toList]
      exact h.bytes p member
    · rw [List.length_map, run, List.map_append]
      rfl

end Pieces

/-- A lexer that is called on and on, whatever the calls give, cuts the bytes of its source into the
preamble, white space and lexemes, without remainder. After at most as many calls as the source has
bytes, and one more, it has given the end token; from then on it gives the same token and does not
change. -/
theorem calls_partition_bytes (dialect : Dialect) (source : String) :
    ∃ (pieces : List Piece) (last : List Char) (final : TokenRecord),
      IsPartition dialect source pieces last ∧
      (∃ mark line rest, preamble source.toList = mark ++ line ∧
        IsPreamble source.toList mark line rest) ∧
      pieces.length ≤ source.utf8ByteSize ∧
      final.kind = .endOfInput ∧ final.text = "" ∧
      final.span = ⟨source.utf8ByteSize, source.utf8ByteSize⟩ ∧
      ∃ l, calls (pieces.length + 1) (ofSource dialect source) =
          some (pieces.map Piece.result ++ [.ok final], l) ∧
        ∀ number, calls number l = some (List.replicate number (.ok final), l) := by
  obtain ⟨pieces, last, final, partition, mark, few, isEnd, empty, span, reached, -⟩ :=
    Tokenizer.calls_partition_source dialect source
  refine ⟨_, last, final.record, isPartition_ofOutcome partition, mark, ?_, beq_iff_eq.mp isEnd,
    empty, span, ?_⟩
  · rwa [List.length_map]
  · have done : ((Tokenizer.ofSource dialect source).after pieces.length).isDone := by
      by_contra more
      rw [Tokenizer.isEnd_of_next (Bool.eq_false_iff.mpr more) reached] at isEnd
      contradiction
    have same : ((Tokenizer.ofSource dialect source).after pieces.length).endToken = final := by
      rw [Tokenizer.next_of_isDone done] at reached
      exact Except.ok.inj reached
    obtain ⟨m, follows, started, run⟩ := (awaits_ofSource dialect source).calls_succ pieces.length
    refine ⟨_, ?_, same ▸ follows.calls_end started done⟩
    rw [List.length_map, run, Tokenizer.results_concat, reached,
      results_eq_take partition (Nat.le_refl _), List.take_length, List.map_append, List.map_map,
      List.map_map]
    rfl

end Lexer
end LuaFrontend
