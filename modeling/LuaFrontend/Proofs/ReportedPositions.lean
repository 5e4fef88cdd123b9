import LuaFrontend.Proofs.LexemeLineEnds
import LuaFrontend.Proofs.SameInput
import LuaFrontend.Proofs.TokenizerPartition

set_option autoImplicit false

namespace LuaFrontend

namespace Tokenizer

/-- The tokenizer stands behind a part of the source that does not end inside a pair. -/
structure StandsBehind (source passed : List Char) (t : Tokenizer) : Prop where
  whole : source = passed ++ t.rest
  here : t.here = ({} : Position).after passed
  clean : CutsClean passed t.rest

variable {source passed : List Char} {t : Tokenizer}

theorem StandsBehind.isCounted (h : t.StandsBehind source passed) : t.here.IsCounted source := by
  rw [h.here, h.whole]
  exact Position.isCounted_after h.clean

theorem StandsBehind.goOn {u : Tokenizer} {taken : List Char} (h : t.StandsBehind source passed)
    (split : t.rest = taken ++ u.rest) (here : u.here = t.here.after taken)
    (clean : CutsClean taken u.rest) : u.StandsBehind source (passed ++ taken) := by
  have meets : CutsClean passed (taken ++ u.rest) := split ▸ h.clean
  refine ⟨?_, ?_, meets.append clean⟩
  · rw [h.whole, split, List.append_assoc]
  · rw [here, h.here, Position.after_append _ meets.of_append_right]

theorem StandsBehind.skipSpace (h : t.StandsBehind source passed) :
    t.skipSpace.StandsBehind source (passed ++ t.rest.takeWhile isSpace) := by
  apply h.goOn
  · exact List.takeWhile_append_dropWhile.symm
  · rfl
  · exact Lexeme.cutsClean_dropWhile_isSpace _ _

/-- A lexeme that begins with no line break is taken to its end. -/
theorem StandsBehind.takeLexeme (h : t.StandsBehind source passed)
    (first : ∀ c ∈ t.rest.head?, isLineBreak c = false) :
    t.takeLexeme.2.StandsBehind source (passed ++ (Lexeme.read t.dialect t.rest).taken) := by
  apply h.goOn
  · exact (Lexeme.text_read t.dialect t.rest).symm
  · rfl
  · change CutsClean _ (Lexeme.read t.dialect t.rest).rest
    cases rest : t.rest with
    | nil => trivial
    | cons c s =>
      apply Lexeme.cutsClean_read
      apply first
      rw [rest]
      rfl

theorem isLineBreak_head_skipSpace (t : Tokenizer) {c : Char} (h : c ∈ t.skipSpace.rest.head?) :
    isLineBreak c = false := by
  have stops := List.head?_dropWhile_not isSpace t.rest
  rw [rest_skipSpace, Option.mem_def] at h
  rw [h] at stops
  simp only [isSpace, Bool.or_eq_false_iff] at stops
  exact stops.2

variable (source t) in
/-- The tokenizer stands somewhere in the source, where no pair is cut. -/
def StandsIn : Prop := ∃ passed, t.StandsBehind source passed

theorem StandsIn.isCounted (h : t.StandsIn source) : t.here.IsCounted source := by
  obtain ⟨passed, stands⟩ := h
  exact stands.isCounted

theorem StandsIn.skipSpace (h : t.StandsIn source) : t.skipSpace.StandsIn source := by
  obtain ⟨passed, stands⟩ := h
  exact ⟨_, stands.skipSpace⟩

theorem StandsIn.next (h : t.StandsIn source) : t.next.2.StandsIn source := by
  obtain ⟨passed, stands⟩ := h
  exact ⟨_, stands.skipSpace.takeLexeme fun c first => isLineBreak_head_skipSpace t first⟩

theorem StandsIn.after (h : t.StandsIn source) (calls : Nat) : (t.after calls).StandsIn source := by
  induction calls generalizing t with
  | zero => exact h
  | succ calls ih => exact ih h.next

/-- What precedes a program is the beginning of one line. -/
theorem isLineBreak_of_mem_preamble {source : List Char} {c : Char} (h : c ∈ preamble source) :
    isLineBreak c = false := by
  obtain ⟨mark, line, rest, same, is⟩ := exists_isPreamble source
  rw [same, List.mem_append] at h
  rcases h with inMark | inLine
  · rcases is.mark with rfl | ⟨rfl, -⟩
    · rw [List.mem_singleton] at inMark
      subst inMark
      rfl
    · cases inMark
  · rcases is.line with ⟨-, inline, -⟩ | ⟨rfl, -⟩
    · simpa using inline c inLine
    · cases inLine

theorem standsIn_ofSource (dialect : Dialect) (source : String) :
    (ofSource dialect source).StandsIn source.toList := by
  refine ⟨preamble source.toList, (ofSource_rest dialect source).symm, rfl, ?_⟩
  exact .of_forall (fun c => isLineBreak_of_mem_preamble) _

/-- Where the source ends, counted from a tokenizer in it. -/
theorem StandsIn.offset_add {source : String} (h : t.StandsIn source.toList) :
    t.here.offset + byteLength t.rest = source.utf8ByteSize := by
  obtain ⟨passed, stands⟩ := h
  rw [stands.here, Position.offset_after, ← byteLength_toList, stands.whole, byteLength_append,
    Nat.zero_add]

/-- What a call gives starts where the white space ends. -/
theorem StandsIn.isCounted_start (h : t.StandsIn source) :
    (Outcome.start t.next.1).IsCounted source := by
  rw [start_next]
  exact h.skipSpace.isCounted

/-- An error is reported where its lexeme starts or where reading stopped. -/
theorem StandsIn.isCounted_error (h : t.StandsIn source) {e : LexError}
    (result : t.next.1 = .error e) : e.position.IsCounted source := by
  have start := h.isCounted_start
  have stop := h.next.isCounted
  rw [here_next] at stop
  rw [result] at start stop
  unfold LexError.position
  split
  · exact start
  · exact stop

/-- What is before a cursor at the beginning of a text comes from calls of the tokenizer. -/
theorem exists_call_of_mem_items {dialect : Dialect} {source : String} {o : Outcome}
    (h : o ∈ (Lexed.ofSource dialect source).items ++
      [.ok (Lexed.ofSource dialect source).final]) :
    ∃ number, ((ofSource dialect source).after number).next.1 = o := by
  rw [List.mem_append, List.mem_singleton, Lexed.ofSource, items_ofTokenizer,
    final_ofTokenizer] at h
  rcases h with inside | rfl
  · obtain ⟨p, member, rfl⟩ := List.mem_map.mp inside
    obtain ⟨before, behind, split⟩ := List.append_of_mem member
    obtain ⟨same, -⟩ := next_after_of_pieces split
    exact ⟨before.length, by rw [same]; rfl⟩
  · refine ⟨_, congrArg Prod.fst (next_of_isDone ?_)⟩
    exact isDone_after_pieces (Nat.le_refl _)

end Tokenizer

/-- A text that is no program has a faulty lexeme, or a token where the grammar finds the fault. -/
theorem isFrom_of_parse_error {options : Options} {source : String} {e : Error}
    (h : parse options source = .error e) :
    e.IsFrom ((Lexed.ofSource options.toDialect source).items ++
      [.ok (Lexed.ofSource options.toDialect source).final]) := by
  unfold parse Report.ofSource at h
  split at h
  · next refusal opened =>
    cases h
    exact List.mem_append_left _ (ofSource_error opened)
  · next c opened =>
    obtain ⟨view, -, -, input, closed⟩ := ofSource_view opened
    split at h
    · cases h
    · next x d run =>
      cases h
      have again : c.Repeats (fun _ => False) c := .refl input closed
      obtain ⟨isFrom, -⟩ := again.chunk_error (.inl rfl) run id
      rw [view] at isFrom
      apply isFrom.mono
      intro o inside
      rw [List.mem_append] at inside ⊢
      exact inside.imp_left fun seen => (List.mem_filter.mp seen).1

/-- The positions that a tokenizer reports, also when it goes on behind errors, are those of one
count of the line ends of its source, and none of them is inside a line end. The same holds for the
errors of the grammar: each stands at a token. -/
theorem reported_positions_are_counted (options : Options) (source : String) :
    (∀ number t, ((Tokenizer.ofSource options.toDialect source).after number).next.1 = .ok t →
      t.start.IsCounted source.toList) ∧
    (∀ number e, ((Tokenizer.ofSource options.toDialect source).after number).next.1 = .error e →
      e.position.IsCounted source.toList) ∧
    (∀ e, parse options source = .error e → e.position.IsCounted source.toList ∧
      ∃ number, match e with
        | .lexical fault =>
          ((Tokenizer.ofSource options.toDialect source).after number).next.1 = .error fault
        | .grammatical fault => ∃ t,
          ((Tokenizer.ofSource options.toDialect source).after number).next.1 = .ok t ∧
            fault.position = t.start) := by
  have stands (number : Nat) :=
    (Tokenizer.standsIn_ofSource options.toDialect source).after number
  have tokens (number : Nat) (t : Token)
      (result : ((Tokenizer.ofSource options.toDialect source).after number).next.1 = .ok t) :
      t.start.IsCounted source.toList := by
    have start := (stands number).isCounted_start
    rwa [result] at start
  have errors (number : Nat) (e : LexError)
      (result : ((Tokenizer.ofSource options.toDialect source).after number).next.1 = .error e) :
      e.position.IsCounted source.toList := (stands number).isCounted_error result
  refine ⟨tokens, errors, fun e h => ?_⟩
  have isFrom := isFrom_of_parse_error h
  cases e with
  | lexical fault =>
    obtain ⟨number, result⟩ := Tokenizer.exists_call_of_mem_items isFrom
    exact ⟨errors number fault result, number, result⟩
  | grammatical fault =>
    obtain ⟨t, inside, same⟩ := isFrom
    obtain ⟨number, result⟩ := Tokenizer.exists_call_of_mem_items inside
    refine ⟨?_, number, t, result, same⟩
    change fault.position.IsCounted _
    rw [same]
    exact tokens number t result

end LuaFrontend
