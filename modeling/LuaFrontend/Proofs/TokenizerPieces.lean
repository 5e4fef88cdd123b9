import LuaFrontend.Token.Tokenizer
import Mathlib.Data.List.TakeWhile

set_option autoImplicit false

namespace LuaFrontend

theorem byteLength_toList (s : String) : byteLength s.toList = s.utf8ByteSize := by
  have general (text : List Char) : byteLength text = (String.ofList text).utf8ByteSize := by
    induction text with
    | nil => rfl
    | cons c text ih =>
      rw [← List.singleton_append, String.ofList_append, String.utf8ByteSize_append,
        byteLength_append, ih]
      simp
  rw [general, String.ofList_toList]

namespace Lexeme

theorem outcome_ofPart_ok {p : Part} {kind k : TokenKind} {fault : Fault}
    (h : (Reading.ofPart p kind fault).outcome = .ok k) : k = kind := by
  simp only [Reading.ofPart] at h
  split at h <;> simp_all

theorem outcome_ofPart_error {p : Part} {kind : TokenKind} {fault f : Fault}
    (h : (Reading.ofPart p kind fault).outcome = .error f) : f = fault := by
  simp only [Reading.ofPart] at h
  split at h <;> simp_all

/-- Only the end of a text is read as the end token. -/
theorem outcome_read_ne_endOfInput (dialect : Dialect) {s : List Char} (h : s ≠ []) :
    (read dialect s).outcome ≠ .ok .endOfInput := by
  obtain ⟨c, s, rfl⟩ := List.exists_cons_of_ne_nil h
  unfold read
  intro ends
  split at ends
  · simp only [readName, wordKind, Except.ok.injEq] at ends
    grind
  · cases outcome_ofPart_ok ends
  · cases outcome_ofPart_ok ends
  · cases outcome_ofPart_ok ends
  · simp only [readLongString] at ends
    split at ends <;> cases outcome_ofPart_ok ends
  · simp only [readSymbol] at ends
    split at ends
    · split at ends <;> simp at ends
    · simp at ends

/-- A character that begins nothing is all that is read. -/
theorem taken_read_of_unexpected (dialect : Dialect) {s : List Char} {c : Char}
    (h : (read dialect s).outcome = .error (.unexpectedCharacter c)) :
    (read dialect s).taken = [c] := by
  unfold read at h ⊢
  split at h
  · simp only [readName] at h
    cases h
  · cases outcome_ofPart_error h
  · cases outcome_ofPart_error h
  · cases outcome_ofPart_error h
  · simp only [readLongString] at h
    split at h <;> cases outcome_ofPart_error h
  · cases s with
    | nil => simp [readSymbol] at h
    | cons d s =>
      simp only [readSymbol] at h ⊢
      split at h
      · cases h
      · simpa using h

end Lexeme

/-- What one call of a tokenizer gives. -/
abbrev Outcome := Except LexError Token

namespace Outcome

/-- The text that was read: of a token its text, of an error what it quotes. -/
def text : Outcome → String
  | .ok t => t.text
  | .error e => e.near

/-- Where that text begins. -/
def start : Outcome → Position
  | .ok t => t.start
  | .error e => e.start

/-- The bytes of that text. -/
def span (o : Outcome) : Span := ⟨o.start.offset, o.start.offset + o.text.utf8ByteSize⟩

end Outcome

/-- White space, and what the lexeme behind it was read as. -/
structure Piece where
  gap : List Char
  outcome : Outcome

/-- The characters of a piece. -/
def Piece.text (p : Piece) : List Char := p.gap ++ p.outcome.text.toList

namespace Tokenizer

/-- The tokenizer after a number of calls. -/
def after (t : Tokenizer) : Nat → Tokenizer
  | 0 => t
  | calls + 1 => t.next.2.after calls

/-- What the first calls give. -/
def results (t : Tokenizer) (calls : Nat) : List Outcome :=
  (List.range calls).map fun number => (t.after number).next.1

theorem results_succ (t : Tokenizer) (calls : Nat) :
    t.results (calls + 1) = t.next.1 :: t.next.2.results calls := by
  rw [results, List.range_succ_eq_map, List.map_cons, List.map_map]
  rfl

theorem results_concat (t : Tokenizer) (calls : Nat) :
    t.results (calls + 1) = t.results calls ++ [(t.after calls).next.1] := by
  rw [results, List.range_succ, List.map_append]
  rfl

/-- What the next call reads. -/
def piece (t : Tokenizer) : Piece := ⟨t.rest.takeWhile isSpace, t.next.1⟩

/-- What is read up to the end of the text, in at most this many calls. -/
def pieces : Nat → Tokenizer → List Piece
  | 0, _ => []
  | calls + 1, t => if t.isDone then [] else t.piece :: pieces calls t.next.2

theorem rest_skipSpace (t : Tokenizer) : t.skipSpace.rest = t.rest.dropWhile isSpace := rfl

theorem here_skipSpace (t : Tokenizer) :
    t.skipSpace.here = t.here.after (t.rest.takeWhile isSpace) := rfl

theorem text_takeLexeme (t : Tokenizer) :
    (Outcome.text t.takeLexeme.1).toList = (Lexeme.read t.dialect t.rest).taken := by
  simp only [takeLexeme]
  split <;> simp [Outcome.text]

theorem start_takeLexeme (t : Tokenizer) : Outcome.start t.takeLexeme.1 = t.here := by
  simp only [takeLexeme]
  split <;> rfl

/-- Where a part is read, it is a token if it is complete and an error if not. -/
theorem next_of_part {t : Tokenizer} {p : Lexeme.Part} {kind : TokenKind} {fault : Fault}
    (h : Lexeme.read t.dialect t.skipSpace.rest = .ofPart p kind fault) :
    t.next.1 = if p.complete then .ok ⟨kind, String.ofList p.taken, t.skipSpace.here⟩
      else .error ⟨fault, t.skipSpace.here, String.ofList p.taken⟩ := by
  have read : Lexeme.read t.skipSpace.dialect t.skipSpace.rest = .ofPart p kind fault := h
  simp only [next, takeLexeme, read, Lexeme.Reading.ofPart]
  cases p.complete <;> rfl

/-- A piece is what the rest of the text loses. -/
theorem rest_eq_piece (t : Tokenizer) : t.rest = t.piece.text ++ t.next.2.rest := by
  have lexeme := Lexeme.text_read t.dialect t.skipSpace.rest
  simp only [Piece.text, piece, next, text_takeLexeme, List.append_assoc]
  simp only [Lexeme.Reading.text] at lexeme
  change _ = _ ++ ((Lexeme.read t.dialect t.skipSpace.rest).taken ++ _)
  rw [show t.skipSpace.takeLexeme.2.rest = (Lexeme.read t.dialect t.skipSpace.rest).rest from rfl,
    lexeme, rest_skipSpace, List.takeWhile_append_dropWhile]

theorem here_next (t : Tokenizer) :
    t.next.2.here = (Outcome.start t.next.1).after (Outcome.text t.next.1).toList := by
  simp only [next, start_takeLexeme, text_takeLexeme]
  rfl

theorem dialect_next (t : Tokenizer) : t.next.2.dialect = t.dialect := rfl

theorem start_next (t : Tokenizer) :
    Outcome.start t.next.1 = t.here.after (t.rest.takeWhile isSpace) := by
  simp only [next, start_takeLexeme, here_skipSpace]

theorem offset_start_next (t : Tokenizer) :
    (Outcome.start t.next.1).offset = t.here.offset + byteLength t.piece.gap := by
  simp only [start_next, Position.offset_after, piece]

theorem offset_next (t : Tokenizer) :
    t.next.2.here.offset = t.here.offset + byteLength t.piece.text := by
  simp only [here_next, Position.offset_after, offset_start_next, Piece.text, byteLength_append,
    piece, Nat.add_assoc]

theorem isSpace_gap (t : Tokenizer) {c : Char} (h : c ∈ t.piece.gap) : isSpace c :=
  List.mem_takeWhile_imp h

theorem isDone_iff (t : Tokenizer) : t.isDone ↔ ∀ c ∈ t.rest, isSpace c := by
  rw [isDone, rest_skipSpace, List.isEmpty_iff, List.dropWhile_eq_nil_iff]

/-- Unless the end is reached, a call reads something. -/
theorem text_next_ne_nil {t : Tokenizer} (h : t.isDone = false) :
    (Outcome.text t.next.1).toList ≠ [] := by
  rw [next, text_takeLexeme]
  apply Lexeme.taken_read_ne_nil
  intro empty
  simp [isDone, empty] at h

theorem read_of_next {t : Tokenizer} {token : Token} (h : t.next.1 = .ok token) :
    Lexeme.read t.dialect t.skipSpace.rest =
      ⟨token.text.toList, t.next.2.rest, .ok token.kind⟩ := by
  have rest : t.next.2.rest = (Lexeme.read t.dialect t.skipSpace.rest).rest := rfl
  rw [rest]
  simp only [next, takeLexeme] at h
  split at h
  · next kind read =>
    obtain rfl := Except.ok.inj h
    rw [← read, String.toList_ofList]
    rfl
  · cases h

/-- Unless the end is reached, a call does not give the end token. -/
theorem isEnd_of_next {t : Tokenizer} (h : t.isDone = false) {token : Token}
    (result : t.next.1 = .ok token) : token.isEnd = false := by
  have nonempty : t.skipSpace.rest ≠ [] := by
    intro empty
    simp [isDone, empty] at h
  have kind := Lexeme.outcome_read_ne_endOfInput t.dialect nonempty
  rw [read_of_next result] at kind
  simpa [Token.isEnd] using kind

theorem near_of_unexpected {t : Tokenizer} {e : LexError} {c : Char} (result : t.next.1 = .error e)
    (fault : e.fault = .unexpectedCharacter c) : e.near = String.singleton c := by
  simp only [next, takeLexeme] at result
  split at result
  · cases result
  · next f read =>
    obtain rfl := Except.error.inj result
    simp only at fault
    subst fault
    simp only [Lexeme.taken_read_of_unexpected _ read]
    rfl

/-- With as many calls as characters the end is reached. -/
theorem length_rest_next {t : Tokenizer} (h : t.isDone = false) :
    t.next.2.rest.length < t.rest.length := by
  have split := congrArg List.length (rest_eq_piece t)
  have positive := List.length_pos_iff.mpr (text_next_ne_nil h)
  simp only [List.length_append, Piece.text, piece] at split
  omega

/-- The pieces, and behind them nothing but white space, are the whole text. -/
theorem rest_eq_pieces (calls : Nat) (t : Tokenizer) :
    t.rest = (pieces calls t).flatMap Piece.text ++ (t.after (pieces calls t).length).rest := by
  induction calls generalizing t with
  | zero => rfl
  | succ calls ih =>
    rw [pieces]
    split
    · rfl
    · simp only [List.flatMap_cons, List.length_cons, after, List.append_assoc]
      rw [← ih t.next.2]
      exact rest_eq_piece t

theorem isDone_after_pieces {calls : Nat} {t : Tokenizer} (h : t.rest.length ≤ calls) :
    (t.after (pieces calls t).length).isDone := by
  induction calls generalizing t with
  | zero =>
    have empty : t.rest = [] := List.eq_nil_of_length_eq_zero (by omega)
    simp [pieces, after, isDone_iff, empty]
  | succ calls ih =>
    rw [pieces]
    split
    · next done => exact done
    · next more =>
      have shorter := length_rest_next (Bool.eq_false_iff.mpr more)
      exact ih (by omega)

/-- The call with this number gives the outcome of the piece with this number. -/
theorem next_after_of_pieces {calls : Nat} {t : Tokenizer} {before behind : List Piece} {p : Piece}
    (h : pieces calls t = before ++ p :: behind) :
    p = (t.after before.length).piece ∧ (t.after before.length).isDone = false := by
  induction calls generalizing t before with
  | zero => simp [pieces] at h
  | succ calls ih =>
    rw [pieces] at h
    split at h
    · simp at h
    · next more =>
      cases before with
      | nil =>
        obtain ⟨same, -⟩ := List.cons.inj h
        exact ⟨same.symm, Bool.eq_false_iff.mpr more⟩
      | cons first before =>
        rw [List.cons_append] at h
        obtain ⟨-, others⟩ := List.cons.inj h
        have later := ih others
        exact later

theorem exists_piece_of_mem {calls : Nat} {t : Tokenizer} {p : Piece} (h : p ∈ pieces calls t) :
    ∃ u : Tokenizer, p = u.piece ∧ u.isDone = false := by
  obtain ⟨before, behind, split⟩ := List.append_of_mem h
  exact ⟨_, next_after_of_pieces split⟩

/-- Positions count the bytes of what was read. -/
theorem offset_after_pieces {calls : Nat} {t : Tokenizer} {before behind : List Piece}
    (h : pieces calls t = before ++ behind) :
    (t.after before.length).here.offset =
      t.here.offset + byteLength (before.flatMap Piece.text) := by
  induction calls generalizing t before with
  | zero =>
    obtain ⟨rfl, -⟩ := List.append_eq_nil_iff.mp h.symm
    rfl
  | succ calls ih =>
    cases before with
    | nil => rfl
    | cons first before =>
      rw [pieces] at h
      split at h
      · simp at h
      · obtain ⟨same, others⟩ := List.cons.inj h
        simp only [List.length_cons, after, ih others, offset_next, List.flatMap_cons,
          byteLength_append, same, Nat.add_assoc]

theorem after_add (t : Tokenizer) (m n : Nat) : t.after (m + n) = (t.after m).after n := by
  induction m generalizing t with
  | zero => rw [Nat.zero_add]; rfl
  | succ m ih => rw [Nat.succ_add, after, ih]; rfl

/-- Behind the end nothing changes any more. -/
theorem next_skipSpace_of_isDone {t : Tokenizer} (h : t.isDone) :
    t.skipSpace.next = (.ok t.endToken, t.skipSpace) := by
  have empty : t.skipSpace.rest = [] := List.isEmpty_iff.mp h
  have still : t.skipSpace.skipSpace = t.skipSpace := by
    rw [show t.skipSpace = { t.skipSpace with rest := [] } by rw [← empty]]
    simp only [skipSpace, List.takeWhile_nil, Position.after_nil, List.dropWhile_nil]
  have done : t.skipSpace.isDone := by rw [isDone, still]; exact h
  rw [next_of_isDone done, endToken, still]
  rfl

theorem after_isDone {t : Tokenizer} (h : t.isDone) (calls : Nat) :
    t.after (calls + 1) = t.skipSpace := by
  rw [after, next_of_isDone h]
  induction calls with
  | zero => rfl
  | succ calls ih => rw [after, next_skipSpace_of_isDone h, ih]

theorem text_endToken_isDone {t : Tokenizer} (h : t.isDone) :
    t.endToken.start.offset = t.here.offset + byteLength t.rest := by
  have all : t.rest.takeWhile isSpace = t.rest := by
    rw [List.takeWhile_eq_self_iff]
    exact t.isDone_iff.mp h
  simp only [endToken, here_skipSpace, all, Position.offset_after]

/-- What the tokens of a text are made from. -/
theorem items_ofTokenizer (calls : Nat) (t : Tokenizer) :
    (Lexed.ofTokenizer calls t).items = (pieces calls t).map Piece.outcome := by
  induction calls generalizing t with
  | zero => rfl
  | succ calls ih =>
    rw [Lexed.ofTokenizer, pieces]
    split
    · rfl
    · simp only [List.map_cons, ih, piece]

theorem final_ofTokenizer (calls : Nat) (t : Tokenizer) :
    (Lexed.ofTokenizer calls t).final = (t.after (pieces calls t).length).endToken := by
  induction calls generalizing t with
  | zero => rfl
  | succ calls ih =>
    rw [Lexed.ofTokenizer, pieces]
    split
    · rfl
    · simp only [ih, List.length_cons, after]

end Tokenizer
end LuaFrontend
