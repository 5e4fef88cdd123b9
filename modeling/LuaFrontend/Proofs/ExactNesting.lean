import LuaFrontend.Proofs.NestingStatements

set_option autoImplicit false

namespace LuaFrontend

open LuaFrontend.Parser

namespace Grammar

variable {dialect : Dialect} {depth : Nat} {c d : Cursor} {chunk : Chunk}

/-- A program is read up to the end token. What is counted on the way are the levels it needs. -/
theorem chunk_needs (legible : c.IsLegible dialect) (run : Grammar.chunk depth c = .ok chunk d) :
    ∃ tokens final n, c.upcoming = tokens.map .ok ++ [.ok final] ∧
      chunk.nesting (tableMarks none tokens) = (n, []) ∧
      ∀ limit, (n ≤ limit → Grammar.chunk limit c = .ok chunk d) ∧
        (limit < n → ∃ x e, Grammar.chunk limit c = .error x e ∧ x.IsTooDeep) := by
  obtain ⟨e, body, rfl⟩ := production_ok.mp run
  obtain ⟨block, f, ofBlock, rest⟩ := bind_ok.mp body
  obtain ⟨tokens, n, passes, -, needs, ⟨marks, m, takes, levels, same⟩, -⟩ :=
    countsForms_levels dialect depth .block ⟨0, [], none, c.current⟩
      (legible.record (.enter .chunk)) rfl ofBlock
  have fewer : n = m := by simpa [Spot.pass] using levels
  have marked : tableMarks none tokens = marks := same
  have counted := takes []
  rw [List.append_nil, ← marked, ← fewer] at counted
  have last : chunk.block = block ∧ f.upcoming = [.ok f.current] := by
    rw [current_bind] at rest
    split at rest
    · next ended =>
      obtain ⟨comments, g, -, result⟩ := bind_ok.mp rest
      obtain ⟨rfl, -⟩ := pure_ok.mp result
      have input := passes.input (legible.record (.enter .chunk)).input
      exact ⟨rfl, congrArg _ (input.eq_nil_of_isEnd ended)⟩
    · exact (not_unexpected_ok rest).elim
  obtain ⟨same, last⟩ := last
  refine ⟨tokens, f.current, n, ?_, ?_, fun limit => ⟨fun enough => ?_, fun less => ?_⟩⟩
  · rw [← last]
    exact passes.upcoming
  · rw [Chunk.nesting, same]
    exact counted
  · exact production_ok.mpr ⟨e, bind_ok.mpr ⟨block, f, (needs limit).1 enough, rest⟩, rfl⟩
  · obtain ⟨x, g, failed, deep⟩ := (needs limit).2 less
    obtain ⟨i, stopped⟩ := error_production (bind_eq_of_error failed)
    exact ⟨x, i, stopped, deep⟩

end Grammar

/-- The end token is no end of a table. -/
theorem tableMarks_with_end {tokens : List Token} {final : Token} (last : final.isEnd)
    (before : Option Token) :
    tableMarks before ((tokens ++ [final]).filter (!·.isComment)) =
      tableMarks before (tokens.filter (!·.isComment)) := by
  have kind : final.kind = .endOfInput := by simpa [Token.isEnd] using last
  have stays : final.isComment = false := by simp [Token.isComment, kind]
  have plain : final.closesTable = false := Token.closesTable_of_kind (by simp [kind])
  simp [List.filter_append, stays, tableMarks_append, tableMarks, plain]

/-- For every program there is a number of levels that it needs: as many as are counted in its tree
with a mark for each table, which says whether a separator stands behind its last field. The program
is read under just those limits that are not lower, and under lower ones the limit is reached. -/
theorem limit_is_exact {options : Options} {source : String} {chunk : Chunk}
    (h : parse options source = .ok chunk) :
    ∃ tokens needed, tokenize options.toDialect source = .ok tokens ∧
      chunk.nesting (tableMarks none (tokens.filter (!·.isComment))) = (needed, []) ∧
      ∀ limit,
        (needed ≤ limit → parse { options with maxDepth := limit } source = .ok chunk) ∧
        (limit < needed → ∃ position near, parse { options with maxDepth := limit } source =
          .error (.grammatical ⟨.nestingTooDeep, position, near⟩)) := by
  obtain ⟨c, d, opened, run⟩ := parse_ok.mp h
  have legible := Cursor.isLegible_ofSource opened
  obtain ⟨seen, final, n, whole, counted, needs⟩ := Grammar.chunk_needs legible run
  obtain ⟨upcoming, -, -, -, -⟩ := ofSource_view opened
  rw [upcoming] at whole
  obtain ⟨items, same⟩ := List.append_inj' whole rfl
  obtain ⟨tokens, tokensOnly, seenOnly, -⟩ := eq_map_ok_of_filter items
  refine ⟨tokens ++ [(Lexed.ofSource options.toDialect source).final], n,
    tokenize_ok.mpr ⟨tokens, tokensOnly, rfl⟩, ?_, fun limit => ⟨fun enough => ?_, fun less => ?_⟩⟩
  · rw [tableMarks_with_end (Lexed.isEnd_final _ _), seenOnly]
    exact counted
  · exact parse_ok.mpr ⟨c, d, opened, (needs limit).1 enough⟩
  · obtain ⟨x, e, failed, deep⟩ := (needs limit).2 less
    have refused := @parse_of_chunk_error { options with maxDepth := limit } _ _ _ _ opened failed
    cases x with
    | lexical x => exact deep.elim
    | grammatical x =>
      obtain ⟨fault, position, near⟩ := x
      obtain rfl : fault = .nestingTooDeep := deep
      exact ⟨position, near, refused⟩

/-- The comma makes the table take three levels, as if it were empty. -/
theorem comma_takes_a_level :
    parse .forParser "return {1,}" =
      .ok ⟨[.returning [.table [.value (.literal ⟨.number, "1", ⟨8, 9⟩⟩)]]], []⟩ ∧
    ∃ tokens, tokenize Options.forParser.toDialect "return {1,}" = .ok tokens ∧
      Chunk.nesting ⟨[.returning [.table [.value (.literal ⟨.number, "1", ⟨8, 9⟩⟩)]]], []⟩
        (tableMarks none (tokens.filter (!·.isComment))) = (5, []) ∧
      parse { Options.forParser with maxDepth := 5 } "return {1,}" =
        .ok ⟨[.returning [.table [.value (.literal ⟨.number, "1", ⟨8, 9⟩⟩)]]], []⟩ ∧
      ∃ position near, parse { Options.forParser with maxDepth := 4 } "return {1,}" =
        .error (.grammatical ⟨.nestingTooDeep, position, near⟩) := by
  have parsed : parse .forParser "return {1,}" =
      .ok ⟨[.returning [.table [.value (.literal ⟨.number, "1", ⟨8, 9⟩⟩)]]], []⟩ := rfl
  obtain ⟨tokens, needed, tokenized, counted, needs⟩ := limit_is_exact parsed
  have marks : (tokenize Options.forParser.toDialect "return {1,}").toOption.map
      (fun tokens => tableMarks none (tokens.filter (!·.isComment))) = some [true] := by
    decide +kernel
  rw [tokenized] at marks
  have marked : tableMarks none (tokens.filter (!·.isComment)) = [true] := Option.some.inj marks
  have five : needed = 5 := by
    rw [marked] at counted
    exact (congrArg Prod.fst counted).symm
  subst five
  exact ⟨parsed, tokens, tokenized, counted, (needs 5).1 le_rfl, (needs 4).2 (by decide)⟩

end LuaFrontend
