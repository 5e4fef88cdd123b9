import LuaFrontend.Proofs.LeafOrder
import LuaFrontend.Proofs.StatementReading
import LuaFrontend.Proofs.TokenSequence

set_option autoImplicit false

namespace LuaFrontend

open Outcome (IsInput)

/-- What is still to be read, if anything is, ends in something that the grammar sees. -/
def Cursor.IsClosed (c : Cursor) : Prop := ∀ o ∈ c.pending.getLast?, Outcome.isSignificant o

/-- Where the end token is current, nothing is left to be read. -/
theorem Cursor.pending_of_isEnd {c d : Cursor} {tokens : List Token} (h : c.Passes tokens d)
    (closed : c.IsClosed) (input : IsInput d.upcoming) (last : d.current.isEnd) :
    d.pending = [] := by
  have alone : d.ready.map .ok ++ d.pending.filter Outcome.isSignificant = [] :=
    input.eq_nil_of_isEnd last
  have hidden := (List.append_eq_nil_iff.mp alone).2
  by_contra more
  have same := List.getLast?_eq_some_getLast more
  obtain ⟨front, whole⟩ := h.pending
  have seen : Outcome.isSignificant (d.pending.getLast more) := by
    apply closed
    rw [← whole, List.getLast?_append, same]
    rfl
  have member := List.mem_filter.mpr ⟨List.getLast_mem more, seen⟩
  rw [hidden] at member
  cases member

/-- No comment is left there either. -/
theorem Cursor.comments_of_isEnd {c d : Cursor} {tokens : List Token} (h : c.Passes tokens d)
    (closed : c.IsClosed) (input : IsInput d.upcoming) (last : d.current.isEnd) :
    d.comments = c.remarks := by
  rw [← h.remarks, remarks, pending_of_isEnd h closed input last]
  exact (List.append_nil _).symm

theorem Cursor.isClosed_of_opening {dialect : Dialect} {final : Token} {aside : List Token}
    {items : List Outcome} {c : Cursor} (h : opening dialect final aside items = .ok c)
    (last : final.isEnd) : c.IsClosed := by
  induction items generalizing aside with
  | nil =>
    cases h
    intro o member
    cases member
  | cons o items ih =>
    cases o with
    | error e => cases h
    | ok t =>
      rw [opening] at h
      split at h
      · exact ih h
      · cases h
        intro o member
        simp only [List.getLast?_append, List.getLast?_singleton, Option.some_or, Option.mem_some]
          at member
        subst member
        simp only [Token.isEnd, beq_iff_eq] at last
        simp [Outcome.isSignificant, Token.isComment, last]

namespace Grammar

open LuaFrontend.Parser

/-- A program is read up to the end token, which stays, and takes the comments. -/
theorem chunk_passes {depth : Nat} {c d : Cursor} {chunk : Chunk} (input : IsInput c.upcoming)
    (run : Grammar.chunk depth c = .ok chunk d) :
    ∃ tokens e, c.Passes tokens e ∧ IsInput e.upcoming ∧ e.current.isEnd ∧
      tokens ∈ Statement.writtenAll chunk.block ∧ chunk.comments = e.comments.map .ofToken ∧
      d.pending = e.pending := by
  obtain ⟨e, body, rfl⟩ := production_ok.mp run
  obtain ⟨block, f, ofBlock, run₁⟩ := bind_ok.mp body
  have reads := reads_levels depth .block (c := c.record _) input ofBlock
  rw [current_bind] at run₁
  split at run₁
  · next last =>
    obtain ⟨comments, g, taken, result⟩ := bind_ok.mp run₁
    obtain ⟨rfl, rfl⟩ := pure_ok.mp result
    obtain ⟨⟨tokens, member, passes⟩, rest⟩ := reads.of_record
    cases liftM_ok.mp taken
    exact ⟨tokens, f, passes, rest, last, member, rfl, rfl⟩
  · exact (not_unexpected_ok run₁).elim

theorem chunk_ok {depth : Nat} {c d : Cursor} {chunk : Chunk} (input : IsInput c.upcoming)
    (closed : c.IsClosed) (run : Grammar.chunk depth c = .ok chunk d) :
    ∃ tokens final, c.upcoming = tokens.map .ok ++ [.ok final] ∧ final.isEnd ∧
      tokens ∈ Statement.writtenAll chunk.block ∧
      chunk.comments = c.remarks.map .ofToken := by
  obtain ⟨tokens, e, passes, rest, last, member, comments, -⟩ := chunk_passes input run
  have whole := passes.upcoming
  rw [show e.upcoming = [.ok e.current] from congrArg _ (rest.eq_nil_of_isEnd last)] at whole
  rw [Cursor.comments_of_isEnd passes closed rest last] at comments
  exact ⟨tokens, e.current, whole, last, member, comments⟩

end Grammar

theorem parse_ok {options : Options} {source : String} {chunk : Chunk} :
    parse options source = .ok chunk ↔ ∃ c d,
      Cursor.ofSource options.toDialect source = .ok c ∧
        Grammar.chunk options.maxDepth c = .ok chunk d := by
  unfold parse Report.ofSource
  constructor
  · intro h
    split at h
    · cases h
    · next c opened =>
      split at h
      · next result d run =>
        cases h
        exact ⟨c, d, opened, run⟩
      · cases h
  · rintro ⟨c, d, opened, run⟩
    rw [opened]
    simp only [run]

theorem parse_of_chunk_error {options : Options} {source : String} {c e : Cursor} {x : Error}
    (opened : Cursor.ofSource options.toDialect source = .ok c)
    (failed : Grammar.chunk options.maxDepth c = .error x e) : parse options source = .error x := by
  unfold parse Report.ofSource
  rw [opened]
  simp only [failed]

theorem ofSource_view {dialect : Dialect} {source : String} {c : Cursor}
    (h : Cursor.ofSource dialect source = .ok c) :
    c.upcoming = (Lexed.ofSource dialect source).items.filter Outcome.isSignificant ++
        [.ok (Lexed.ofSource dialect source).final] ∧
      c.remarks = (Lexed.ofSource dialect source).items.filterMap Outcome.comment? ∧
      c.dialect = dialect ∧ IsInput c.upcoming ∧ c.IsClosed := by
  have last := Lexed.isEnd_final dialect source
  have input := Lexed.isInput_ofSource dialect source
  rw [Cursor.ofSource, Cursor.ofLexed] at h
  obtain ⟨upcoming, remarks, same⟩ := Cursor.opening_view h last
  rw [List.reverse_nil, List.nil_append] at remarks
  rw [← upcoming] at input
  exact ⟨upcoming, remarks, same, input, Cursor.isClosed_of_opening h last⟩

/-- A text is refused for a faulty lexeme. -/
theorem ofSource_error {dialect : Dialect} {source : String} {refusal : Cursor.Refusal}
    (h : Cursor.ofSource dialect source = .error refusal) :
    .error refusal.error ∈ (Lexed.ofSource dialect source).items := by
  rw [Cursor.ofSource, Cursor.ofLexed] at h
  exact Cursor.opening_error h

/-- Where the grammar sees tokens only, there are only tokens. -/
theorem eq_map_ok_of_filter {items : List Outcome} {seen : List Token}
    (h : items.filter Outcome.isSignificant = seen.map .ok) :
    ∃ tokens : List Token, items = tokens.map .ok ∧ tokens.filter (!·.isComment) = seen ∧
      items.filterMap Outcome.comment? = tokens.filter (·.isComment) := by
  induction items generalizing seen with
  | nil =>
    obtain rfl := List.map_eq_nil_iff.mp h.symm
    exact ⟨[], rfl, rfl, rfl⟩
  | cons o items ih =>
    cases o with
    | error e =>
      rw [List.filter_cons_of_pos rfl] at h
      cases seen <;> cases h
    | ok t =>
      by_cases comment : t.isComment
      · rw [List.filter_cons_of_neg (by simp [Outcome.isSignificant, comment])] at h
        obtain ⟨tokens, rfl, same, comments⟩ := ih h
        exact ⟨t :: tokens, rfl, by simpa [comment] using same, by
          simpa [Outcome.comment?, comment] using comments⟩
      · rw [List.filter_cons_of_pos (by simp [Outcome.isSignificant, comment])] at h
        cases seen with
        | nil => cases h
        | cons first seen =>
          obtain ⟨first, others⟩ := List.cons.inj h
          cases first
          obtain ⟨tokens, rfl, same, comments⟩ := ih others
          exact ⟨t :: tokens, rfl, by simpa [comment] using same, by
            simpa [Outcome.comment?, comment] using comments⟩

/-- The same with the end token behind. -/
theorem eq_map_ok_of_append {items : List Outcome} {final last : Token} {seen : List Token}
    (h : items.filter Outcome.isSignificant ++ [.ok final] = seen.map .ok ++ [.ok last]) :
    ∃ tokens : List Token, items = tokens.map .ok ∧ tokens.filter (!·.isComment) = seen ∧
      items.filterMap Outcome.comment? = tokens.filter (·.isComment) :=
  eq_map_ok_of_filter (List.append_inj' h rfl).1

/-- A program is written in its tokens, and has their comments. -/
theorem tokens_of_parse {options : Options} {source : String} {chunk : Chunk}
    (h : parse options source = .ok chunk) :
    ∃ tokens : List Token, (Lexed.ofSource options.toDialect source).items = tokens.map .ok ∧
      tokens.filter (!·.isComment) ∈ Statement.writtenAll chunk.block ∧
      chunk.comments = (tokens.filter (·.isComment)).map .ofToken := by
  obtain ⟨c, d, opened, run⟩ := parse_ok.mp h
  obtain ⟨upcoming, remarks, -, input, closed⟩ := ofSource_view opened
  obtain ⟨seen, final, whole, -, written, comments⟩ := Grammar.chunk_ok input closed run
  rw [upcoming] at whole
  obtain ⟨tokens, items, same, commentsOnly⟩ := eq_map_ok_of_append whole
  rw [remarks, commentsOnly] at comments
  exact ⟨tokens, items, same ▸ written, comments⟩

/-- A text without faulty lexemes is seen as its tokens, comments apart. -/
theorem ofSource_of_tokenize {dialect : Dialect} {source : String} {tokens : List Token}
    (h : tokenize dialect source = .ok tokens) :
    ∃ c, Cursor.ofSource dialect source = .ok c ∧
      c.upcoming = (tokens.filter (!·.isComment)).map .ok ∧ c.dialect = dialect ∧
      Outcome.IsInput c.upcoming := by
  obtain ⟨before, items, rfl⟩ := tokenize_ok.mp h
  cases opened : Cursor.ofSource dialect source with
  | error refusal =>
    have member := ofSource_error opened
    rw [items] at member
    simp at member
  | ok c =>
    obtain ⟨upcoming, -, same, input, -⟩ := ofSource_view opened
    refine ⟨c, rfl, ?_, same, input⟩
    have last : (Lexed.ofSource dialect source).final.isComment = false := by
      have final := Lexed.isEnd_final dialect source
      simp only [Token.isEnd, beq_iff_eq] at final
      simp [Token.isComment, final]
    rw [upcoming, items, List.filter_map, List.filter_append, List.filter_singleton, last,
      List.map_append]
    rfl

/-- The tree of a program is written as the tokens of its text, comments apart: `writtenAll` leaves
open only where semicolons stand and how the fields of tables are separated. Every name and every
literal has the text and the place of a token of its own, from left to right, and the comments of
the program are those of the text. -/
theorem parse_accounts_for_tokens {options : Options} {source : String} {chunk : Chunk}
    (h : parse options source = .ok chunk) :
    ∃ tokens final, tokenize options.toDialect source = .ok (tokens ++ [final]) ∧
      final.isEnd ∧ (∀ t ∈ tokens, t.isEnd = false) ∧
      tokens.filter (!·.isComment) ∈ Statement.writtenAll chunk.block ∧
      chunk.comments = (tokens.filter (·.isComment)).map .ofToken ∧
      (chunk.outline.preorder.filterMap (·.2.place?)).Sublist
        ((tokens.filter (!·.isComment)).map Token.place) ∧
      (chunk.outline.preorder.filterMap (·.2.place?)).Pairwise (·.2.Precedes ·.2) := by
  obtain ⟨c, d, opened, run⟩ := parse_ok.mp h
  obtain ⟨upcoming, remarks, -, input, closed⟩ := ofSource_view opened
  obtain ⟨seen, final, whole, last, written, comments⟩ := Grammar.chunk_ok input closed run
  rw [upcoming] at whole
  obtain ⟨items, same⟩ := List.append_inj' whole rfl
  obtain ⟨tokens, tokensOnly, seenOnly, commentsOnly⟩ := eq_map_ok_of_filter items
  have finalOnly : (Lexed.ofSource options.toDialect source).final = final :=
    Except.ok.inj (List.singleton_inj.mp same)
  have leaves : chunk.outline.preorder.filterMap (·.2.place?) =
      Outline.placesAll (Outline.ofStatements chunk.block) := by
    rw [Outline.preorder, Outline.filterMap_preorderAt]
    simp [Chunk.outline]
  have covered := Statement.coversAll chunk.block seen written
  have ordered : (tokens.map Token.place).Pairwise (·.2.Precedes ·.2) := by
    have spans := Lexed.ordered_ofSource options.toDialect source
    rw [tokensOnly, List.map_map, List.pairwise_map] at spans
    exact List.pairwise_map.mpr spans
  have tokenized : tokenize options.toDialect source = .ok (tokens ++ [final]) :=
    tokenize_ok.mpr ⟨tokens, tokensOnly, by rw [finalOnly]⟩
  refine ⟨tokens, final, tokenized, last, ?_, ?_, ?_, ?_, ?_⟩
  · intro t member
    apply Lexed.isEnd_of_mem_items options.toDialect source
    rw [tokensOnly]
    exact List.mem_map_of_mem member
  · rw [seenOnly]
    exact written
  · rw [comments, remarks, commentsOnly]
  · rw [seenOnly, leaves]
    exact covered
  · rw [leaves]
    refine ordered.sublist (covered.trans ?_)
    rw [← seenOnly]
    exact List.filter_sublist.map _

/-- An assignment and a comment behind it. -/
theorem parse_accounts_for_assignment :
    parse .forParser "x=1 --c" = .ok ⟨[.assignment [.name ⟨"x", ⟨0, 1⟩⟩]
      [.literal ⟨.number, "1", ⟨2, 3⟩⟩]], [⟨"--c", ⟨4, 7⟩⟩]⟩ ∧
    ∃ tokens final, tokenize Options.forParser.toDialect "x=1 --c" = .ok (tokens ++ [final]) ∧
      final.isEnd ∧
      tokens.filter (!·.isComment) ∈ Statement.writtenAll
        [.assignment [.name ⟨"x", ⟨0, 1⟩⟩] [.literal ⟨.number, "1", ⟨2, 3⟩⟩]] ∧
      [⟨"--c", ⟨4, 7⟩⟩] = (tokens.filter (·.isComment)).map Comment.ofToken := by
  have parsed : parse .forParser "x=1 --c" = .ok ⟨[.assignment [.name ⟨"x", ⟨0, 1⟩⟩]
      [.literal ⟨.number, "1", ⟨2, 3⟩⟩]], [⟨"--c", ⟨4, 7⟩⟩]⟩ := rfl
  obtain ⟨tokens, final, tokenized, last, -, written, comments, -⟩ :=
    parse_accounts_for_tokens parsed
  exact ⟨parsed, tokens, final, tokenized, last, written, comments⟩

end LuaFrontend
