import LuaFrontend.Proofs.LexerCalls

set_option autoImplicit false

namespace LuaFrontend

/-- A location is the one that the count of line ends gives for its offset, and it is not inside a
line end. -/
structure Location.IsCounted (source : List Char) (p : Location) : Prop where
  line_eq : p.line = (lineAt source p.offset).line
  column_eq : p.column = p.offset - (lineAt source p.offset).lineStart + 1
  lineStart_le : (lineAt source p.offset).lineStart ≤ p.offset
  offset_le : p.offset ≤ byteLength source
  outside : ∀ s ∈ lineEnds 0 source, ¬ (s.start < p.offset ∧ p.offset < s.stop)

theorem Position.IsCounted.location {source : List Char} {p : Position} (h : p.IsCounted source) :
    p.location.IsCounted source where
  line_eq := congrArg Position.line h.eq_lineAt
  column_eq := h.column_eq
  lineStart_le := h.lineStart_le
  offset_le := h.offset_le
  outside := h.outside

/-- Where a token begins, as far as it is kept. -/
def TokenRecord.start (t : TokenRecord) : Position := ⟨t.span.start, t.line, t.lineStart⟩

namespace Lexer

variable {dialect : Dialect} {source : String} {number : Nat}
  {results : List (Except ErrorRecord TokenRecord)} {l : Lexer}

/-- What a lexer gives is what some call of the tokenizer gives, as it is kept. -/
theorem exists_call_of_mem (run : calls number (ofSource dialect source) = some (results, l))
    {result : Except ErrorRecord TokenRecord} (member : result ∈ results) :
    ∃ call, Outcome.record ((Tokenizer.ofSource dialect source).after call).next.1 = result := by
  obtain ⟨m, same, -⟩ := (awaits_ofSource dialect source).calls number
  obtain ⟨rfl, -⟩ := Prod.mk.inj (Option.some.inj (run.symm.trans same))
  obtain ⟨o, inside, rfl⟩ := List.mem_map.mp member
  obtain ⟨call, -, rfl⟩ := List.mem_map.mp inside
  exact ⟨call, rfl⟩

theorem token_of_record {o : Outcome} {t : TokenRecord} (h : o.record = .ok t) :
    ∃ token, o = .ok token ∧ token.record = t := by
  cases o with
  | ok token => exact ⟨token, rfl, Except.ok.inj h⟩
  | error e => cases h

theorem error_of_record {o : Outcome} {e : ErrorRecord} (h : o.record = .error e) :
    ∃ fault, o = .error fault ∧ fault.record = e := by
  cases o with
  | ok token => cases h
  | error fault => exact ⟨fault, rfl, Except.error.inj h⟩

/-- Every call of the tokenizer is also one of the lexer. -/
theorem exists_calls (dialect : Dialect) (source : String) (call : Nat) :
    ∃ number results l, calls number (ofSource dialect source) = some (results, l) ∧
      Outcome.record ((Tokenizer.ofSource dialect source).after call).next.1 ∈ results := by
  obtain ⟨m, -, -, run⟩ := (awaits_ofSource dialect source).calls_succ call
  refine ⟨call + 1, _, _, run, List.mem_map_of_mem ?_⟩
  rw [Tokenizer.results_concat]
  exact List.mem_append_right _ List.mem_cons_self

end Lexer

/-- The lines and columns that a lexer keeps, also when it goes on behind errors, are those of one
count of the line ends of its source, and nothing is reported from inside a line end, although lines
are counted only by the moves that take line ends. The same holds for the errors of the grammar: each
stands at a token. -/
theorem recorded_positions_are_counted (options : Options) (source : String) :
    (∀ number, ∃ results l,
      Lexer.calls number (.ofSource options.toDialect source) = some (results, l) ∧
        (∀ t, .ok t ∈ results → t.start.IsCounted source.toList) ∧
        (∀ e, .error e ∈ results → e.location.IsCounted source.toList)) ∧
    (∀ e, parse options source = .error e → e.position.location.IsCounted source.toList ∧
      ∃ number results l,
        Lexer.calls number (.ofSource options.toDialect source) = some (results, l) ∧
        match e with
        | .lexical fault => .error fault.record ∈ results
        | .grammatical fault => ∃ t, .ok t ∈ results ∧ fault.position = t.start) := by
  obtain ⟨tokens, errors, parses⟩ := reported_positions_are_counted options source
  constructor
  · intro number
    obtain ⟨m, run, -⟩ := (Lexer.awaits_ofSource options.toDialect source).calls number
    refine ⟨_, m, run, ?_, ?_⟩
    · intro t member
      obtain ⟨call, record⟩ := Lexer.exists_call_of_mem run member
      obtain ⟨token, result, rfl⟩ := Lexer.token_of_record record
      exact tokens call token result
    · intro e member
      obtain ⟨call, record⟩ := Lexer.exists_call_of_mem run member
      obtain ⟨fault, result, rfl⟩ := Lexer.error_of_record record
      exact (errors call fault result).location
  · intro e failed
    obtain ⟨counted, call, found⟩ := parses e failed
    obtain ⟨number, results, l, run, member⟩ :=
      Lexer.exists_calls options.toDialect source call
    refine ⟨counted.location, number, results, l, run, ?_⟩
    cases e with
    | lexical fault =>
      rw [found] at member
      exact member
    | grammatical fault =>
      obtain ⟨t, result, same⟩ := found
      rw [result] at member
      exact ⟨t.record, member, same⟩

/-- A string that is not finished stops at the end of its line, the second one here. -/
theorem position_of_unfinished_string :
    parse .forParser "x\r\n'a" = .error (.lexical ⟨.unfinishedString, ⟨3, 2, 3⟩, "'a"⟩) ∧
      (⟨2, 3, 5⟩ : Location).IsCounted "x\r\n'a".toList := by
  have failed : parse .forParser "x\r\n'a" =
      .error (.lexical ⟨.unfinishedString, ⟨3, 2, 3⟩, "'a"⟩) := rfl
  have counted := ((recorded_positions_are_counted .forParser "x\r\n'a").2 _ failed).1
  exact ⟨failed, counted⟩

end LuaFrontend
