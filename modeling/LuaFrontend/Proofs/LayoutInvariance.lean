import LuaFrontend.Proofs.ChunkReading
import LuaFrontend.Proofs.StatementLikeness

set_option autoImplicit false

namespace LuaFrontend

/-- What the grammar looks at in a token. -/
def Token.spelling (t : Token) : TokenKind × String := (t.kind, t.text)

namespace Likeness

theorem spelling_eq {first second : List Token}
    (same : first.map (·.spelling) = second.map (·.spelling)) {t u : Token} {number : Nat}
    (isFirst : first[number]? = some t) (isSecond : second[number]? = some u) :
    u.spelling = t.spelling := by
  have left : (first.map (·.spelling))[number]? = some t.spelling := by
    rw [List.getElem?_map, isFirst, Option.map_some]
  have right : (second.map (·.spelling))[number]? = some u.spelling := by
    rw [List.getElem?_map, isSecond, Option.map_some]
  rw [same, right] at left
  exact Option.some.inj left

/-- Tokens match where they have the same number. -/
def ofTokens (first second : List Token)
    (same : first.map (·.spelling) = second.map (·.spelling)) : Likeness :=
  ofWhole (fun t u => ∃ number : Nat, first[number]? = some t ∧ second[number]? = some u)
    (fun _ _ => False) (fun _ => {}) (fun _ => {}) (fun _ => False)
    (fun ⟨_, isFirst, isSecond⟩ => congrArg Prod.fst (spelling_eq same isFirst isSecond))
    (fun ⟨_, isFirst, isSecond⟩ => congrArg Prod.snd (spelling_eq same isFirst isSecond))
    fun _ => rfl

theorem matches_ofTokens {first second : List Token}
    (same : first.map (·.spelling) = second.map (·.spelling)) :
    (ofTokens first second same).Matches (first.map .ok) (second.map .ok) := by
  apply Matches.of_forall₂
  have lengths : first.length = second.length := by
    simpa only [List.length_map] using congrArg List.length same
  rw [List.forall₂_map_left_iff, List.forall₂_map_right_iff, List.forall₂_iff_get]
  refine ⟨lengths, fun number isFirst isSecond => .token ⟨number, ?_, ?_⟩⟩
  · exact List.getElem?_eq_getElem isFirst
  · exact List.getElem?_eq_getElem isSecond

end Likeness

/-- Two texts that are cut into the same tokens, comments apart, are parsed alike: white space, line
ends and comments never change a tree and never make a program out of a text that is none. -/
theorem parse_of_same_tokens {options : Options} {first second : String} {left right : List Token}
    (isLeft : tokenize options.toDialect first = .ok left)
    (isRight : tokenize options.toDialect second = .ok right)
    (same : (left.filter (!·.isComment)).map (·.spelling) =
      (right.filter (!·.isComment)).map (·.spelling)) :
    (∃ a b, parse options first = .ok a ∧ parse options second = .ok b ∧
      Block.eraseSpans a.block = Block.eraseSpans b.block) ∨
    (∃ (fault : SyntaxFault) (near : String) (number : Nat) (t u : Token),
      (left.filter (!·.isComment))[number]? = some t ∧
      (right.filter (!·.isComment))[number]? = some u ∧
      parse options first = .error (.grammatical ⟨fault, t.start, near⟩) ∧
      parse options second = .error (.grammatical ⟨fault, u.start, near⟩)) := by
  obtain ⟨c, opened, view, dialect, input⟩ := ofSource_of_tokenize isLeft
  obtain ⟨d, alsoOpened, seen, alsoDialect, alsoInput⟩ := ofSource_of_tokenize isRight
  have both : (Likeness.ofTokens _ _ same).Cursors c d := by
    refine ⟨?_, .inl (by rw [dialect, alsoDialect]), input, alsoInput⟩
    rw [view, seen]
    exact Likeness.matches_ofTokens same
  have depths : (Likeness.ofTokens _ _ same).SameDepths options.maxDepth options.maxDepth :=
    .inl rfl
  have results := Likeness.runs_chunk depths (fun _ _ => id) both both.sees
  simp only [parse, Report.ofSource, opened, alsoOpened]
  cases run : Grammar.chunk options.maxDepth c with
  | ok a e =>
    cases other : Grammar.chunk options.maxDepth d with
    | ok b f =>
      rw [run, other] at results
      exact .inl ⟨a, b, rfl, rfl, results.1⟩
    | error e f =>
      rw [run, other] at results
      exact results.elim
  | error e k =>
    cases other : Grammar.chunk options.maxDepth d with
    | ok b f =>
      rw [run, other] at results
      exact results.elim
    | error f l =>
      rw [run, other] at results
      cases results.resolve_left id with
      | lexical impossible => exact impossible.elim
      | grammatical fault near matching =>
        obtain ⟨number, isFirst, isSecond⟩ := matching
        exact .inr ⟨fault, near, number, _, _, isFirst, isSecond, rfl, rfl⟩

/-- A call whose parentheses stand on the next line, behind a comment. -/
theorem parse_of_call_on_next_line :
    ∃ a b, parse .forParser "f()" = .ok a ∧ parse .forParser "f--c\n()" = .ok b ∧
      Block.eraseSpans a.block = Block.eraseSpans b.block := by
  have isLeft : tokenize Options.forParser.toDialect "f()" = .ok
      [⟨.identifier, "f", ⟨0, 1, 0⟩⟩, ⟨.symbol, "(", ⟨1, 1, 0⟩⟩, ⟨.symbol, ")", ⟨2, 1, 0⟩⟩,
        ⟨.endOfInput, "", ⟨3, 1, 0⟩⟩] := rfl
  have isRight : tokenize Options.forParser.toDialect "f--c\n()" = .ok
      [⟨.identifier, "f", ⟨0, 1, 0⟩⟩, ⟨.comment, "--c", ⟨1, 1, 0⟩⟩, ⟨.symbol, "(", ⟨5, 2, 5⟩⟩,
        ⟨.symbol, ")", ⟨6, 2, 5⟩⟩, ⟨.endOfInput, "", ⟨7, 2, 5⟩⟩] := rfl
  rcases parse_of_same_tokens isLeft isRight rfl with
    accepted | ⟨_, _, _, _, _, -, -, rejected, -⟩
  · exact accepted
  · have parsed : (parse .forParser "f()").isOk := rfl
    rw [rejected] at parsed
    cases parsed

end LuaFrontend
