import LuaFrontend.Proofs.ChunkReading
import LuaFrontend.Proofs.RunLaw

set_option autoImplicit false

namespace LuaFrontend

open LuaFrontend.Parser

/-- The error is about a faulty lexeme of the list, or about a token where the grammar finds the
fault, and only tokens are in front of it. -/
def Error.IsMetIn (outcomes : List Outcome) : Error → Prop
  | .lexical e => ∃ tokens : List Token, tokens.map .ok ++ [.error e] <+: outcomes
  | .grammatical e => ∃ (tokens : List Token) (t : Token),
      tokens.map .ok ++ [.ok t] <+: outcomes ∧ e.position = t.start

namespace Error.IsMetIn

variable {outcomes : List Outcome} {x : Error}

theorem behind (h : x.IsMetIn outcomes) (tokens : List Token) :
    x.IsMetIn (tokens.map .ok ++ outcomes) := by
  cases x with
  | lexical e =>
    obtain ⟨others, front⟩ := h
    refine ⟨tokens ++ others, ?_⟩
    rw [List.map_append, List.append_assoc]
    exact (List.prefix_append_right_inj _).mpr front
  | grammatical e =>
    obtain ⟨others, t, front, same⟩ := h
    refine ⟨tokens ++ others, t, ?_, same⟩
    rw [List.map_append, List.append_assoc]
    exact (List.prefix_append_right_inj _).mpr front

theorem current (c : Cursor) (fault : SyntaxFault) (near : String) :
    IsMetIn c.upcoming (.grammatical ⟨fault, c.current.start, near⟩) :=
  ⟨[], c.current, List.prefix_append [_] _, rfl⟩

theorem next {c : Cursor} {e : LexError} {rest : List Outcome}
    (h : c.upcoming = .ok c.current :: .error e :: rest) : IsMetIn c.upcoming (.lexical e) := by
  rw [h]
  exact ⟨[c.current], List.prefix_append [_, _] rest⟩

end Error.IsMetIn

namespace RunRelation

/-- Only tokens are taken, and a run fails where an error is met. -/
def meetsErrors : RunRelation where
  leads c d := ∃ tokens : List Token, c.upcoming = tokens.map .ok ++ d.upcoming
  fails c x _ := x.IsMetIn c.upcoming

theorem meetsErrors_next : meetsErrors.Holds (liftM Cursor.next : Parser Token) := by
  intro c
  change meetsErrors.Result c (act Cursor.next c)
  unfold act
  rcases Cursor.next_cases c with ⟨d, run, passes, -⟩ | ⟨t, rest, d, run, passes, -⟩ |
    ⟨e, rest, d, run, view⟩
  · rw [run]
    exact ⟨[], passes.upcoming⟩
  · rw [run]
    exact ⟨[], passes.upcoming⟩
  · rw [run]
    exact .next view

theorem meetsErrors_advance : meetsErrors.Holds (liftM Cursor.advance : Parser Unit) := by
  intro c
  change meetsErrors.Result c (act Cursor.advance c)
  unfold act
  rcases Cursor.advance_cases c with ⟨d, run, passes, -⟩ | ⟨t, rest, d, run, passes, -⟩ |
    ⟨e, rest, d, run, view⟩
  · rw [run]
    exact ⟨[], passes.upcoming⟩
  · rw [run]
    exact ⟨[c.current], passes.upcoming⟩
  · rw [run]
    exact .next view

theorem meetsErrors_unexpected {α : Type} : meetsErrors.Holds (unexpected : Parser α) := by
  intro c
  have following := meetsErrors_next c
  rw [unexpected, Parser.get_bind]
  cases run : (liftM Cursor.next : Parser Token) c with
  | ok t d =>
    rw [bind_eq_of_ok run]
    exact .current c _ _
  | error x d =>
    rw [bind_eq_of_error run]
    rwa [run] at following

theorem isLaw_meetsErrors : meetsErrors.IsLaw where
  refl _ := ⟨[], rfl⟩
  trans := by
    rintro c d e ⟨first, h⟩ ⟨second, g⟩
    exact ⟨first ++ second, by rw [h, g, List.map_append, List.append_assoc]⟩
  trans_fails := by
    rintro c d e x ⟨first, h⟩ met
    change x.IsMetIn c.upcoming
    rw [h]
    exact met.behind first
  next := meetsErrors_next
  advance := meetsErrors_advance
  takeComments _ := ⟨[], rfl⟩
  failHere fault c := .current c fault c.current.near
  unexpected := meetsErrors_unexpected
  production p body h c := by
    have inside := h (c.record (.enter p))
    unfold Parser.production
    cases run : body (c.record (.enter p)) with
    | ok a d =>
      rw [run] at inside
      exact inside
    | error x d =>
      rw [run] at inside
      exact inside

end RunRelation

namespace Lexed

/-- Collecting the tokens ends at the first error. -/
theorem collect_error {final : Token} {items : List Outcome} {e : LexError} :
    collect final items = .error e ↔
      ∃ tokens : List Token, tokens.map .ok ++ [.error e] <+: items := by
  induction items with
  | nil =>
    constructor
    · rintro ⟨⟩
    · rintro ⟨tokens, front⟩
      simpa using List.prefix_nil.mp front
  | cons o items ih =>
    cases o with
    | error f =>
      constructor
      · rintro ⟨⟩
        exact ⟨[], List.prefix_append [_] items⟩
      · rintro ⟨tokens, front⟩
        cases tokens with
        | nil =>
          obtain ⟨same, -⟩ := List.cons_prefix_cons.mp front
          cases same
          rfl
        | cons t tokens => cases (List.cons_prefix_cons.mp front).1
    | ok t =>
      rw [collect]
      constructor
      · intro h
        cases rest : collect final items with
        | ok others =>
          rw [rest] at h
          cases h
        | error f =>
          rw [rest] at h
          cases h
          obtain ⟨tokens, front⟩ := ih.mp rest
          exact ⟨t :: tokens, List.cons_prefix_cons.mpr ⟨rfl, front⟩⟩
      · rintro ⟨tokens, front⟩
        cases tokens with
        | nil => cases (List.cons_prefix_cons.mp front).1
        | cons u tokens =>
          rw [ih.mpr ⟨tokens, (List.cons_prefix_cons.mp front).2⟩]
          rfl

end Lexed

/-- A text with a faulty lexeme: in front of the first one are tokens only. -/
theorem tokenize_error {dialect : Dialect} {source : String} {e : LexError} :
    tokenize dialect source = .error e ↔
      ∃ tokens : List Token,
        tokens.map .ok ++ [.error e] <+: (Lexed.ofSource dialect source).items :=
  Lexed.collect_error

/-- A text is refused for its first faulty lexeme. -/
theorem Cursor.first_of_opening_error {dialect : Dialect} {final : Token} {aside : List Token}
    {items : List Outcome} {refusal : Refusal}
    (h : opening dialect final aside items = .error refusal) :
    ∃ tokens : List Token, tokens.map .ok ++ [.error refusal.error] <+: items := by
  induction items generalizing aside with
  | nil => cases h
  | cons o items ih =>
    cases o with
    | error e =>
      cases h
      exact ⟨[], List.prefix_append [_] items⟩
    | ok t =>
      rw [opening] at h
      split at h
      · obtain ⟨tokens, front⟩ := ih h
        exact ⟨t :: tokens, List.cons_prefix_cons.mpr ⟨rfl, front⟩⟩
      · cases h

/-- The first faulty lexeme that the grammar sees is the first one of the text. -/
theorem first_of_filter {items : List Outcome} {final : Token} {seen : List Token} {e : LexError}
    (h : seen.map .ok ++ [.error e] <+: items.filter Outcome.isSignificant ++ [.ok final]) :
    ∃ tokens : List Token, tokens.map .ok ++ [.error e] <+: items := by
  induction items generalizing seen with
  | nil =>
    have member : .error e ∈ [(.ok final : Outcome)] := h.subset (by simp)
    cases List.mem_singleton.mp member
  | cons o items ih =>
    cases o with
    | error f =>
      rw [List.filter_cons_of_pos rfl, List.cons_append] at h
      cases seen with
      | nil =>
        obtain ⟨same, -⟩ := List.cons_prefix_cons.mp h
        cases same
        exact ⟨[], List.prefix_append [_] items⟩
      | cons t seen => cases (List.cons_prefix_cons.mp h).1
    | ok t =>
      have behind (seen' : List Token) (rest : seen'.map .ok ++ [.error e] <+:
          items.filter Outcome.isSignificant ++ [.ok final]) :
          ∃ tokens : List Token, tokens.map .ok ++ [.error e] <+: .ok t :: items := by
        obtain ⟨tokens, front⟩ := ih rest
        exact ⟨t :: tokens, List.cons_prefix_cons.mpr ⟨rfl, front⟩⟩
      by_cases comment : t.isComment
      · rw [List.filter_cons_of_neg (by simp [Outcome.isSignificant, comment])] at h
        exact behind seen h
      · rw [List.filter_cons_of_pos (by simp [Outcome.isSignificant, comment])] at h
        cases seen with
        | nil => cases (List.cons_prefix_cons.mp h).1
        | cons u seen => exact behind seen (List.cons_prefix_cons.mp h).2

/-- A token with tokens only before it stands before the first error. -/
theorem mem_of_front {tokens front : List Token} {t : Token} {e : LexError} {rest : List Outcome}
    (h : tokens.map .ok ++ [.ok t] <+: front.map .ok ++ .error e :: rest) : t ∈ front := by
  induction front generalizing tokens with
  | nil => cases tokens <;> cases (List.cons_prefix_cons.mp h).1
  | cons u front ih =>
    cases tokens with
    | nil =>
      obtain ⟨same, -⟩ := List.cons_prefix_cons.mp h
      cases same
      exact List.mem_cons_self
    | cons v tokens => exact List.mem_cons_of_mem u (ih (List.cons_prefix_cons.mp h).2)

theorem LexError.start_le_position (e : LexError) : e.start.offset ≤ e.position.offset := by
  unfold position
  split
  · exact Nat.le_refl _
  · rw [Position.offset_after]
    exact Nat.le_add_right _ _

/-- What stands before a faulty lexeme starts before the place that its error names. -/
theorem start_lt_of_first {dialect : Dialect} {source : String} {front : List Token} {t : Token}
    {e : LexError}
    (first : front.map .ok ++ [.error e] <+: (Lexed.ofSource dialect source).items)
    (member : t ∈ front) : t.start.offset < e.position.offset := by
  obtain ⟨rest, split⟩ := first
  have ordered := Lexed.ordered_ofSource dialect source
  rw [← split, List.append_assoc, List.map_append, List.pairwise_append] at ordered
  have precedes := ordered.2.2 (Outcome.span (.ok t))
    (List.mem_map_of_mem (List.mem_map_of_mem member)) (Outcome.span (.error e)) (by simp)
  have starts := e.start_le_position
  have shorter : t.start.offset < (Outcome.span (.ok t)).stop := precedes.1
  have behind : (Outcome.span (.ok t)).stop ≤ e.start.offset := precedes.2
  omega

/-- A text that is no program: its error is met with only tokens before it. -/
theorem isMetIn_of_parse_error {options : Options} {source : String} {c : Cursor} {x : Error}
    (opened : Cursor.ofSource options.toDialect source = .ok c)
    (h : parse options source = .error x) : x.IsMetIn c.upcoming := by
  have law := RunRelation.isLaw_meetsErrors.chunk options.maxDepth c
  rw [parse, Report.ofSource, opened] at h
  cases run : Grammar.chunk options.maxDepth c with
  | ok chunk d =>
    simp only [run] at h
    cases h
  | error y d =>
    simp only [run] at h
    cases h
    rwa [run] at law

theorem tokenize_of_parse_lexical {options : Options} {source : String} {e : LexError}
    (h : parse options source = .error (.lexical e)) :
    tokenize options.toDialect source = .error e := by
  apply tokenize_error.mpr
  cases opened : Cursor.ofSource options.toDialect source with
  | error refusal =>
    rw [parse, Report.ofSource, opened] at h
    cases h
    rw [Cursor.ofSource, Cursor.ofLexed] at opened
    exact Cursor.first_of_opening_error opened
  | ok c =>
    obtain ⟨seen, front⟩ := isMetIn_of_parse_error opened h
    rw [(ofSource_view opened).1] at front
    exact first_of_filter front

/-- Where the grammar finds a fault in a text, it does so before the first faulty lexeme. -/
theorem position_lt_of_tokenize_error {options : Options} {source : String} {e : LexError}
    {s : SyntaxError} (faulty : tokenize options.toDialect source = .error e)
    (h : parse options source = .error (.grammatical s)) :
    s.position.offset < e.position.offset := by
  obtain ⟨front, first⟩ := tokenize_error.mp faulty
  cases opened : Cursor.ofSource options.toDialect source with
  | error refusal =>
    rw [parse, Report.ofSource, opened] at h
    cases h
  | ok c =>
    obtain ⟨tokens, t, met, same⟩ := isMetIn_of_parse_error opened h
    obtain ⟨rest, split⟩ := first
    have tokensOnly : (front.map (.ok : Token → Outcome)).filter Outcome.isSignificant =
        (front.filter (!·.isComment)).map .ok := by
      rw [List.filter_map]
      rfl
    rw [(ofSource_view opened).1, ← split, List.append_assoc, List.filter_append, tokensOnly,
      List.append_assoc] at met
    have member := (List.mem_filter.mp (mem_of_front met)).1
    rw [same]
    exact start_lt_of_first ⟨rest, split⟩ member

/-- Parser and tokenizer agree on faulty lexemes. What a parse reports of them is what the tokens
of the text are refused for; and a text that is refused for a lexeme is no program, because of the
same lexeme or of a token before the place that its error names. -/
theorem parse_and_tokenize_agree (options : Options) (source : String) :
    (∀ e, parse options source = .error (.lexical e) →
      tokenize options.toDialect source = .error e) ∧
    ∀ e, tokenize options.toDialect source = .error e →
      parse options source = .error (.lexical e) ∨
      ∃ s, parse options source = .error (.grammatical s) ∧
        s.position.offset < e.position.offset := by
  refine ⟨fun e => tokenize_of_parse_lexical, fun e faulty => ?_⟩
  cases parsed : parse options source with
  | ok chunk =>
    obtain ⟨tokens, items, -⟩ := tokens_of_parse parsed
    have whole := tokenize_ok.mpr ⟨tokens, items, rfl⟩
    rw [faulty] at whole
    cases whole
  | error x =>
    cases x with
    | lexical f =>
      have same := tokenize_of_parse_lexical parsed
      rw [faulty] at same
      cases same
      exact .inl rfl
    | grammatical s => exact .inr ⟨s, rfl, position_lt_of_tokenize_error faulty parsed⟩

/-- A string that is not finished: as an argument it is met, behind an open call it is not. -/
theorem agree_on_unfinished_strings :
    tokenize Options.forParser.toDialect "f 'a" = .error ⟨.unfinishedString, ⟨2, 1, 0⟩, "'a"⟩ ∧
    ∃ s, parse .forParser "f(x y 'a" = .error (.grammatical s) ∧ s.position.offset < 8 := by
  have argument : parse .forParser "f 'a" =
      .error (.lexical ⟨.unfinishedString, ⟨2, 1, 0⟩, "'a"⟩) := rfl
  refine ⟨(parse_and_tokenize_agree .forParser _).1 _ argument, ?_⟩
  have agree := (parse_and_tokenize_agree .forParser "f(x y 'a").2
    ⟨.unfinishedString, ⟨6, 1, 0⟩, "'a"⟩ (by decide +kernel)
  have notMet : (match parse .forParser "f(x y 'a" with
      | .error (.lexical _) => true
      | _ => false) = false := by decide +kernel
  refine agree.resolve_left fun met => ?_
  rw [met] at notMet
  cases notMet

end LuaFrontend
