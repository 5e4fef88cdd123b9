import LuaFrontend.Proofs.LexemeJoin
import LuaFrontend.Proofs.TokenSequence
import LuaFrontend.Proofs.TokenizerPartition
import Mathlib.Data.List.Forall2

set_option autoImplicit false

namespace LuaFrontend

/-- The same bytes, further behind. -/
def Span.shift (bytes : Nat) (s : Span) : Span := ⟨s.start + bytes, s.stop + bytes⟩

/-- The same token, further behind. -/
structure Token.IsShifted (bytes : Nat) (t u : Token) : Prop where
  kind : u.kind = t.kind
  text : u.text = t.text
  offset : u.start.offset = t.start.offset + bytes

theorem Token.IsShifted.span {bytes : Nat} {t u : Token} (h : t.IsShifted bytes u) :
    t.span.shift bytes = u.span := by
  simp only [Token.span, Span.shift, h.offset, h.text, Span.mk.injEq, true_and]
  omega

theorem Token.IsShifted.isComment {bytes : Nat} {t u : Token} (h : t.IsShifted bytes u) :
    u.isComment = t.isComment := by
  simp only [Token.isComment, h.kind]

/-- A test that does not look at places picks the same tokens. -/
theorem Token.IsShifted.filter {bytes : Nat} {tokens others : List Token} {p : Token → Bool}
    (same : ∀ ⦃t u⦄, t.IsShifted bytes u → p u = p t)
    (h : List.Forall₂ (Token.IsShifted bytes) tokens others) :
    List.Forall₂ (Token.IsShifted bytes) (tokens.filter p) (others.filter p) :=
  List.rel_filter (fun _ _ shifted => by simp only [same shifted]) h

namespace Tokenizer

variable {t : Tokenizer} {behind : List Char}

section Front

/-- The tokenizer in front of more text. -/
def followedBy (t : Tokenizer) (more : List Char) : Tokenizer := { t with rest := t.rest ++ more }

theorem skipSpace_followedBy (h : t.isDone = false) (more : List Char) :
    (t.followedBy more).skipSpace = t.skipSpace.followedBy more := by
  have some : t.rest.dropWhile isSpace ≠ [] := by
    intro empty
    simp [isDone, rest_skipSpace, empty] at h
  have short : (t.rest.takeWhile isSpace).length ≠ t.rest.length := by
    intro same
    have whole :=
      congrArg List.length (List.takeWhile_append_dropWhile (p := isSpace) (l := t.rest))
    rw [List.length_append, same] at whole
    exact some (List.eq_nil_of_length_eq_zero (by omega))
  simp only [skipSpace, followedBy, List.takeWhile_append, if_neg short, List.dropWhile_append,
    List.isEmpty_iff, if_neg some]

/-- A line break behind a token ends it. -/
theorem next_followedBy (h : t.isDone = false) {token : Token} (result : t.next.1 = .ok token) :
    (t.followedBy ('\n' :: behind)).next = (t.next.1, t.next.2.followedBy ('\n' :: behind)) := by
  have read := read_of_next result
  have some : t.skipSpace.rest ≠ [] := by
    intro empty
    simp [isDone, empty] at h
  have ok : (Lexeme.read t.dialect t.skipSpace.rest).outcome = .ok token.kind := by rw [read]
  have lineFeed : isSpace '\n' := rfl
  have longer := Lexeme.read_append_gap lineFeed t.dialect some ok (.inl rfl) behind
  change (t.followedBy _).skipSpace.takeLexeme = (t.skipSpace.takeLexeme.1, _)
  rw [skipSpace_followedBy h]
  change takeLexeme { t.skipSpace with rest := t.skipSpace.rest ++ '\n' :: behind } = _
  simp only [takeLexeme]
  rw [show t.skipSpace.dialect = t.dialect from rfl, longer]
  rfl

theorem isDone_followedBy (h : t.isDone = false) (more : List Char) :
    (t.followedBy more).isDone = false := by
  rw [isDone, skipSpace_followedBy h]
  rw [isDone] at h
  cases rest : t.skipSpace.rest with
  | nil => simp [rest] at h
  | cons c s => simp [followedBy, rest]

/-- The tokens of a text come first, whatever is written behind a line break; where they end, as
many bytes have been passed as the text has. -/
theorem remaining_followedBy {tokens : List Token}
    (all : (Lexed.remaining t).items = tokens.map .ok) (behind : List Char) :
    ∃ last : Tokenizer, last.isDone ∧ last.dialect = t.dialect ∧
      last.here.offset + byteLength last.rest = t.here.offset + byteLength t.rest ∧
      Lexed.remaining (t.followedBy ('\n' :: behind)) =
        ⟨tokens.map .ok ++ (Lexed.remaining (last.followedBy ('\n' :: behind))).items,
          (Lexed.remaining (last.followedBy ('\n' :: behind))).final⟩ := by
  induction tokens generalizing t with
  | nil =>
    cases done : t.isDone with
    | true => exact ⟨t, done, rfl, rfl, rfl⟩
    | false =>
      rw [Lexed.remaining_next done] at all
      cases all
  | cons token tokens ih =>
    cases done : t.isDone with
    | true =>
      rw [Lexed.remaining_of_isDone done] at all
      cases all
    | false =>
      rw [Lexed.remaining_next done] at all
      obtain ⟨result, others⟩ := List.cons.inj all
      obtain ⟨last, ends, dialect, offset, same⟩ := ih others
      refine ⟨last, ends, dialect, ?_, ?_⟩
      · rw [offset, offset_next, t.rest_eq_piece, byteLength_append]
        omega
      · rw [Lexed.remaining_next (isDone_followedBy done _), next_followedBy done result, same,
          result]
        rfl

end Front

section Behind

variable {bytes : Nat} {u : Tokenizer}

/-- The second tokenizer has the same text before it, further behind, white space apart. -/
structure IsShifted (bytes : Nat) (t u : Tokenizer) : Prop where
  dialect : u.dialect = t.dialect
  rest : u.skipSpace.rest = t.skipSpace.rest
  offset : u.skipSpace.here.offset = t.skipSpace.here.offset + bytes

theorem IsShifted.isDone (h : t.IsShifted bytes u) : u.isDone = t.isDone := by
  simp only [Tokenizer.isDone, h.rest]

theorem IsShifted.endToken (h : t.IsShifted bytes u) : t.endToken.IsShifted bytes u.endToken :=
  ⟨rfl, rfl, h.offset⟩

theorem IsShifted.of_rest {t u : Tokenizer} (dialect : u.dialect = t.dialect)
    (rest : u.rest = t.rest) (offset : u.here.offset = t.here.offset + bytes) :
    t.IsShifted bytes u := by
  refine ⟨dialect, ?_, ?_⟩
  · simp only [rest_skipSpace, rest]
  · simp only [here_skipSpace, Position.offset_after, rest, offset]
    omega

/-- One more line break in front does not matter. -/
theorem IsShifted.of_lineFeed {t u : Tokenizer} (dialect : u.dialect = t.dialect)
    (rest : u.rest = '\n' :: t.rest) (offset : u.here.offset + 1 = t.here.offset + bytes) :
    t.IsShifted bytes u := by
  have space : isSpace '\n' := rfl
  refine ⟨dialect, ?_, ?_⟩
  · simp only [rest_skipSpace, rest, List.dropWhile_cons_of_pos space]
  · simp only [here_skipSpace, Position.offset_after, rest, List.takeWhile_cons_of_pos space,
      byteLength_cons]
    have one : Char.utf8Size '\n' = 1 := rfl
    omega

/-- The same token is read, and behind it the same text goes on. -/
theorem IsShifted.next (h : t.IsShifted bytes u) {token : Token} (result : t.next.1 = .ok token) :
    (∃ other, u.next.1 = .ok other ∧ token.IsShifted bytes other) ∧
      t.next.2.IsShifted bytes u.next.2 := by
  have read := read_of_next result
  have reading : Lexeme.read u.skipSpace.dialect u.skipSpace.rest =
      ⟨token.text.toList, t.next.2.rest, .ok token.kind⟩ := by
    rw [show u.skipSpace.dialect = u.dialect from rfl, h.dialect, h.rest, read]
  have start : token.start = t.skipSpace.here := by
    have both := start_takeLexeme t.skipSpace
    rw [show t.skipSpace.takeLexeme.1 = .ok token from result] at both
    exact both
  have given : u.next =
      (.ok ⟨token.kind, token.text, u.skipSpace.here⟩, ⟨u.dialect,
        u.skipSpace.here.after token.text.toList, t.next.2.rest⟩) := by
    simp only [Tokenizer.next, takeLexeme, reading, String.ofList_toList]
    rfl
  rw [given]
  refine ⟨⟨_, rfl, rfl, rfl, ?_⟩, ?_⟩
  · rw [h.offset, start]
  · apply of_rest
    · exact h.dialect
    · rfl
    · have here : t.next.2.here = token.start.after token.text.toList := by
        rw [t.here_next, result]
        rfl
      rw [here, Position.offset_after, Position.offset_after, h.offset, start]
      omega

/-- The same tokens come to the end of the text. -/
theorem IsShifted.remaining (h : t.IsShifted bytes u) {tokens : List Token}
    (all : (Lexed.remaining t).items = tokens.map .ok) :
    ∃ others : List Token, (Lexed.remaining u).items = others.map .ok ∧
      List.Forall₂ (Token.IsShifted bytes) tokens others ∧
      (Lexed.remaining t).final.IsShifted bytes (Lexed.remaining u).final := by
  induction tokens generalizing t u with
  | nil =>
    cases done : t.isDone with
    | true =>
      rw [Lexed.remaining_of_isDone done, Lexed.remaining_of_isDone (h.isDone.trans done)]
      exact ⟨[], rfl, .nil, h.endToken⟩
    | false =>
      rw [Lexed.remaining_next done] at all
      cases all
  | cons token tokens ih =>
    cases done : t.isDone with
    | true =>
      rw [Lexed.remaining_of_isDone done] at all
      cases all
    | false =>
      rw [Lexed.remaining_next done] at all ⊢
      obtain ⟨result, rest⟩ := List.cons.inj all
      obtain ⟨⟨other, given, same⟩, further⟩ := h.next result
      obtain ⟨others, items, each, final⟩ := ih further rest
      rw [Lexed.remaining_next (h.isDone.trans done), given, items]
      exact ⟨other :: others, rfl, .cons same each, final⟩

end Behind

theorem read_semicolon (dialect : Dialect) (s : List Char) :
    Lexeme.read dialect (';' :: s) = ⟨[';'], s, .ok .symbol⟩ := by
  obtain ⟨labels, _, division, bitwise, _, _, extended⟩ := dialect
  cases labels <;> cases division <;> cases bitwise <;> cases extended <;> rfl

/-- A semicolon on its own line: white space, the sign, and the text behind it. -/
theorem next_semicolon (h : t.isDone) (behind : List Char) :
    let u := t.followedBy ('\n' :: ';' :: '\n' :: behind)
    u.isDone = false ∧
      (∃ start : Position, u.next.1 = .ok ⟨.symbol, ";", start⟩) ∧
      u.next.2.rest = '\n' :: behind ∧ u.next.2.dialect = t.dialect ∧
      u.next.2.here.offset = t.here.offset + byteLength t.rest + 2 := by
  intro u
  have space : t.rest.dropWhile isSpace = [] := List.isEmpty_iff.mp h
  have all : t.rest.takeWhile isSpace = t.rest := by
    rw [List.takeWhile_eq_self_iff]
    exact t.isDone_iff.mp h
  have rest : u.skipSpace.rest = ';' :: '\n' :: behind := by
    rw [rest_skipSpace]
    change (t.rest ++ _).dropWhile isSpace = _
    rw [List.dropWhile_append, space]
    rfl
  have gap : u.rest.takeWhile isSpace = t.rest ++ ['\n'] := by
    change (t.rest ++ _).takeWhile isSpace = _
    rw [List.takeWhile_append, if_pos (by rw [all])]
    rfl
  have reading : Lexeme.read u.skipSpace.dialect u.skipSpace.rest =
      ⟨[';'], '\n' :: behind, .ok .symbol⟩ := by
    rw [rest, read_semicolon]
  have given : u.next = (.ok ⟨.symbol, ";", u.skipSpace.here⟩,
      ⟨t.dialect, u.skipSpace.here.after [';'], '\n' :: behind⟩) := by
    simp only [Tokenizer.next, takeLexeme, reading]
    rfl
  rw [given]
  refine ⟨?_, ⟨_, rfl⟩, rfl, rfl, ?_⟩
  · rw [isDone, rest]
    rfl
  · rw [Position.offset_after, here_skipSpace, Position.offset_after, gap, byteLength_append]
    change t.here.offset + _ + _ = _
    simp only [byteLength_cons, byteLength_nil]
    rfl

end Tokenizer

section Sources

variable {dialect : Dialect} {first second : String} {behind : List Char}

/-- The line that may precede a program ends at a line break. -/
theorem preamble_append (source behind : List Char) :
    preamble (source ++ '\n' :: behind) = preamble source := by
  cases source with
  | nil => rfl
  | cons c s =>
    have front : ((c :: s) ++ '\n' :: behind).take 1 = (c :: s).take 1 := rfl
    have short : (((c :: s).take 1).takeWhile (· == '\uFEFF')).length ≤ (c :: s).length := by
      have le := (List.takeWhile_prefix (l := (c :: s).take 1) (· == '\uFEFF')).length_le
      simp only [List.length_take, List.length_cons] at le ⊢
      omega
    have noBreak : '\n' ∉ ['#', '!'] := by decide
    simp only [preamble, front, List.drop_append_of_le_length short,
      Lexeme.isPrefixOf_append_gap noBreak,
      @Lexeme.takeWhile_append_gap '\n' (!isLineBreak ·) rfl]

theorem preamble_eq_nil {source : List Char} (noMark : source.head? ≠ some '\uFEFF')
    (noShell : ¬ ['#', '!'] <+: source) : preamble source = [] := by
  obtain ⟨mark, line, rest, same, is⟩ := exists_isPreamble source
  have none : mark = [] := by
    rcases is.mark with marked | ⟨none, -⟩
    · rw [is.whole, marked] at noMark
      exact absurd rfl noMark
    · exact none
  have whole := is.whole
  rw [none, List.nil_append] at whole
  rcases is.line with ⟨shell, -, -⟩ | ⟨empty, -⟩
  · exact absurd (whole ▸ shell.trans (List.prefix_append line rest)) noShell
  · rw [same, none, empty]
    rfl

theorem Tokenizer.ofSource_append (dialect : Dialect) (source : String) (behind : String) :
    ofSource dialect (source ++ "\n" ++ behind) =
      (ofSource dialect source).followedBy ('\n' :: behind.toList) := by
  have text : (source ++ "\n" ++ behind).toList = source.toList ++ '\n' :: behind.toList := by
    simp
  have fits : (preamble source.toList).length ≤ source.toList.length := by
    have whole := congrArg List.length (ofSource_rest dialect source)
    rw [List.length_append] at whole
    omega
  simp only [ofSource, followedBy, text, preamble_append, List.drop_append_of_le_length fits]

/-- The tokens of a text that consists of two, with a semicolon on a line of its own between them:
those of the first, the semicolon, and those of the second further behind. -/
theorem Lexed.ofSource_joined {tokens others : List Token}
    (isFirst : (ofSource dialect first).items = tokens.map .ok)
    (isSecond : (ofSource dialect second).items = others.map .ok)
    (noPreamble : preamble second.toList = []) :
    ∃ (start : Position) (shifted : List Token),
      (ofSource dialect (first ++ "\n;\n" ++ second)).items =
        (tokens ++ ⟨.symbol, ";", start⟩ :: shifted).map .ok ∧
      List.Forall₂ (Token.IsShifted (first.utf8ByteSize + 3)) others shifted ∧
      (ofSource dialect second).final.IsShifted (first.utf8ByteSize + 3)
        (ofSource dialect (first ++ "\n;\n" ++ second)).final := by
  have cut : Tokenizer.ofSource dialect (first ++ "\n;\n" ++ second) =
      (Tokenizer.ofSource dialect first).followedBy ('\n' :: ';' :: '\n' :: second.toList) := by
    have same := Tokenizer.ofSource_append dialect first (";\n" ++ second)
    have text : first ++ "\n" ++ (";\n" ++ second) = first ++ "\n;\n" ++ second := by
      apply String.toList_inj.mp
      simp
    rw [text] at same
    simpa using same
  obtain ⟨last, done, lastDialect, offset, joined⟩ :=
    Tokenizer.remaining_followedBy isFirst (';' :: '\n' :: second.toList)
  obtain ⟨more, ⟨start, semicolon⟩, rest, sameDialect, here⟩ :=
    Tokenizer.next_semicolon done second.toList
  have shifted : (Tokenizer.ofSource dialect second).IsShifted (first.utf8ByteSize + 3)
      (last.followedBy ('\n' :: ';' :: '\n' :: second.toList)).next.2 := by
    have passed := Tokenizer.ofSource_rest dialect first
    have size := congrArg byteLength passed
    rw [byteLength_append, byteLength_toList, ← Tokenizer.ofSource_offset dialect first] at size
    apply Tokenizer.IsShifted.of_lineFeed
    · rw [sameDialect, lastDialect]
      rfl
    · rw [rest, Tokenizer.ofSource, noPreamble]
      rfl
    · rw [here, offset, size, Tokenizer.ofSource_offset, noPreamble, byteLength_nil]
      omega
  obtain ⟨list, items, each, final⟩ := shifted.remaining isSecond
  refine ⟨start, list, ?_, each, ?_⟩
  · rw [show ofSource dialect (first ++ "\n;\n" ++ second) = remaining _ from rfl, cut, joined,
      remaining_next more, semicolon, items]
    simp
  · rw [show ofSource dialect (first ++ "\n;\n" ++ second) = remaining _ from rfl, cut, joined,
      remaining_next more]
    exact final

end Sources
end LuaFrontend
