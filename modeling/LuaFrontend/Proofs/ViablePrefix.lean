import LuaFrontend.Proofs.LayoutInvariance
import LuaFrontend.Proofs.NestingLimit
import LuaFrontend.Proofs.ProgramForesight
import LuaFrontend.Proofs.RejoinedTokens

set_option autoImplicit false

namespace LuaFrontend

open LuaFrontend.Grammar
open LuaFrontend.Parser
open Outcome (IsInput)

section Tokens

/-- No two tokens of a text begin at the same place. -/
theorem starts_increase {dialect : Dialect} {source : String} {tokens : List Token}
    (h : tokenize dialect source = .ok tokens) :
    tokens.Pairwise fun t u => t.start.offset < u.start.offset := by
  obtain ⟨before, items, rfl⟩ := tokenize_ok.mp h
  have increase := Lexed.starts_increase dialect source
  rw [items, ← List.map_singleton, ← List.map_append, List.pairwise_map] at increase
  exact increase

/-- The tokens of a text that the grammar sees. -/
def significant (tokens : List Token) : List Token := tokens.filter (!·.isComment)

theorem isInput_graft {tokens : List Token} {rest other : List Outcome}
    (h : IsInput (tokens.map .ok ++ rest)) (some : rest ≠ []) (input : IsInput other) :
    IsInput (tokens.map .ok ++ other) := by
  induction tokens with
  | nil => exact input
  | cons t tokens ih =>
    generalize whole : (t :: tokens).map Except.ok ++ rest = outcomes at h
    cases h with
    | final last =>
      obtain ⟨-, none⟩ := List.cons.inj whole
      exact absurd (List.append_eq_nil_iff.mp none).2 some
    | token more spelled behind =>
      obtain ⟨same, others⟩ := List.cons.inj whole
      cases same
      rw [← others] at behind
      exact .token more spelled (ih behind)
    | error behind => cases (List.cons.inj whole).1

theorem isEnd_of_mem_front {tokens : List Token} {rest : List Outcome}
    (h : IsInput (tokens.map .ok ++ rest)) (some : rest ≠ []) : ∀ t ∈ tokens, t.isEnd = false := by
  induction tokens with
  | nil => exact nofun
  | cons t tokens ih =>
    have behind : tokens.map .ok ++ rest ≠ [] := by simp [some]
    refine List.forall_mem_cons.mpr ⟨?_, ih (@IsInput.of_append [.ok t] _ h behind)⟩
    by_contra last
    exact behind (h.eq_nil_of_isEnd (Bool.not_eq_false _ ▸ last))

/-- Every sequence of proper words is that of the tokens of some text. -/
theorem exists_text {dialect : Dialect} {words : List Word} (proper : Proper dialect words) :
    ∃ source tokens, tokenize dialect source = .ok tokens ∧ significant tokens = tokens ∧
      tokens.map (·.spelling) = words ++ [(.endOfInput, "")] := by
  have newline : isSpace '\n' := rfl
  obtain ⟨tokens, tokenized, spelled⟩ :=
    tokenize_print newline (fun w member => (proper w member).whole) fun _ _ => .inl rfl
  refine ⟨_, tokens, tokenized, List.filter_eq_self.mpr fun t member => ?_, spelled⟩
  have word : t.spelling ∈ words ++ [(.endOfInput, "")] := spelled ▸ List.mem_map_of_mem member
  have other : t.kind ≠ .comment := by
    rcases List.mem_append.mp word with inside | last
    · exact (proper _ inside).isSeen
    · have kind : t.kind = .endOfInput := congrArg Prod.fst (List.mem_singleton.mp last)
      simp [kind]
  simpa [Token.isComment] using other

/-- Tokens of one text and those at the end of another can stand before a cursor. -/
theorem exists_faces (dialect : Dialect) {taken back : List Token} {rest : List Outcome}
    (h : IsInput (taken.map .ok ++ rest)) (some : rest ≠ []) (input : IsInput (back.map .ok)) :
    ∃ c : Cursor, c.Faces dialect ((taken ++ back).map .ok) := by
  have whole := isInput_graft h some input
  rw [← List.map_append] at whole
  obtain ⟨o, _, list⟩ := List.exists_cons_of_ne_nil whole.ne_nil
  obtain ⟨t, others, same, -, -⟩ := List.map_eq_cons_iff.mp list
  have view : Cursor.upcoming ⟨dialect, [], t, others, [], [], [], 0⟩ = (taken ++ back).map .ok := by
    simp [Cursor.upcoming, same]
  exact ⟨_, view, rfl, view ▸ whole⟩

end Tokens

section Cursors

variable {dialect : Dialect} {depth : Nat} {c d e : Cursor}

/-- Whether tokens are a program does not depend on their places. -/
theorem chunk_of_spellings {first second : List Token} {program : Chunk}
    (same : first.map (·.spelling) = second.map (·.spelling))
    (view : c.Faces dialect (first.map .ok)) (seen : d.Faces dialect (second.map .ok))
    (run : chunk depth c = .ok program e) : ∃ other f, chunk depth d = .ok other f := by
  have both : (Likeness.ofTokens first second same).Cursors c d := by
    refine ⟨?_, .inl (by rw [view.dialect_eq, seen.dialect_eq]), view.input, seen.input⟩
    rw [view.upcoming, seen.upcoming]
    exact Likeness.matches_ofTokens same
  have depths : (Likeness.ofTokens first second same).SameDepths depth depth := .inl rfl
  have results := Likeness.runs_chunk depths (fun _ _ => id) both both.sees
  rw [run] at results
  obtain ⟨other, f, again, -⟩ := results.of_ok
  exact ⟨other, f, again⟩

/-- A list that begins like another one, and what is behind that. -/
theorem exists_split {others taken : List Token} {t : Token}
    (same : (others.take (taken.length + 1)).map (·.spelling) = (taken ++ [t]).map (·.spelling)) :
    ∃ front u back, others = front ++ u :: back ∧
      front.map (·.spelling) = taken.map (·.spelling) ∧ u.spelling = t.spelling := by
  rw [List.map_append] at same
  obtain ⟨front, ends, split, isFront, isEnd⟩ := List.map_eq_append_iff.mp same
  obtain ⟨u, none, rfl, last, empty⟩ := List.map_eq_cons_iff.mp isEnd
  obtain rfl := List.map_eq_nil_iff.mp empty
  refine ⟨front, u, others.drop (taken.length + 1), ?_, isFront, last⟩
  rw [← List.singleton_append, ← List.append_assoc, ← split, List.take_append_drop]

/-- What is refused for a token is refused with other tokens behind it, in any places. -/
theorem not_ok_of_refuses {fault : SyntaxFault} {taken others : List Token} {t : Token}
    {rest : List Outcome} (refuses : Refuses dialect (chunk depth) fault taken t rest)
    (shallow : fault ≠ .nestingTooDeep) (more : t.isEnd = false)
    (input : IsInput (taken.map .ok ++ .ok t :: rest))
    (seen : d.Faces dialect (others.map .ok))
    (same : (others.take (taken.length + 1)).map (·.spelling) = (taken ++ [t]).map (·.spelling))
    {program : Chunk} : chunk depth d ≠ .ok program e := by
  intro run
  obtain ⟨front, u, back, rfl, spelled, isLast⟩ := exists_split same
  have last : u.isEnd = false := by
    rw [Token.isEnd, show u.kind = t.kind from congrArg Prod.fst isLast]
    exact more
  have seenRest : IsInput (.ok u :: back.map .ok) := by
    have whole := seen.input
    rw [seen.upcoming, List.map_append] at whole
    exact whole.of_append (List.cons_ne_nil _ _)
  have some := seenRest.tail_ne_nil last
  have behind : IsInput (back.map .ok) := @IsInput.of_append [.ok u] _ seenRest some
  -- The tokens of the first text, with those of the second one behind them.
  obtain ⟨c, view⟩ : ∃ c : Cursor, c.Faces dialect ((taken ++ [t] ++ back).map .ok) := by
    have first := input.of_append (List.cons_ne_nil _ _)
    refine @exists_faces dialect _ _ rest ?_ (first.tail_ne_nil more) behind
    simpa using input
  have alike : (front ++ u :: back).map (·.spelling) = (taken ++ [t] ++ back).map (·.spelling) := by
    simp [spelled, isLast]
  obtain ⟨other, g, again⟩ := chunk_of_spellings alike seen view run
  obtain ⟨y, f, failed, -⟩ := refuses (by simpa using view) fun deep => absurd deep shallow
  cases again.symm.trans failed

end Cursors

section Texts

variable {options : Options} {source : String} {tokens : List Token} {x : SyntaxError}

/-- The token that an error is about. -/
theorem eq_of_start {n m : Nat} {t u : Token} (h : tokenize options.toDialect source = .ok tokens)
    (isFirst : (significant tokens)[n]? = some t) (isSecond : (significant tokens)[m]? = some u)
    (same : t.start = u.start) : n = m := by
  have distinct : ((significant tokens).map (·.start)).Nodup := by
    rw [List.Nodup, List.pairwise_map]
    exact ((starts_increase h).filter _).imp fun less alike => absurd less (by rw [alike]; omega)
  have inside : n < ((significant tokens).map (·.start)).length := by
    rw [List.length_map]
    exact (List.getElem?_eq_some_iff.mp isFirst).1
  refine (List.getElem?_inj inside distinct).mp ?_
  rw [List.getElem?_map, List.getElem?_map, isFirst, isSecond, Option.map_some, Option.map_some, same]

theorem position_of_report {fault : SyntaxFault} {t : Token} {rest : List Outcome}
    (h : .grammatical x = fault.report t rest) : x.position = t.start := by
  unfold SyntaxFault.report at h
  repeat' split at h
  all_goals
    cases h
    try rfl

theorem parse_refused (h : parse options source = .error (.grammatical x)) :
    ∃ c d, Cursor.ofSource options.toDialect source = .ok c ∧
      chunk options.maxDepth c = .error (.grammatical x) d := by
  rw [parse, Report.ofSource] at h
  split at h
  · cases h
  · next c opened =>
    split at h
    · cases h
    · next d run =>
      cases h
      exact ⟨c, d, opened, run⟩

theorem parseChecked_refused (h : parseChecked options source = .error (.grammatical x)) :
    ∃ c d, Cursor.ofSource options.toDialect source = .ok c ∧
      chunkOf (checkedLevels options.maxDepth .block) c = .error (.grammatical x) d := by
  rw [parseChecked] at h
  split at h
  · cases h
  · next c opened =>
    split at h
    · cases h
    · next d run =>
      cases h
      exact ⟨c, _, opened, run⟩

/-- The tokens in front of a fault, and the number of the token that it is about. -/
theorem split_of_start {c : Cursor} {taken : List Token} {rest : List Outcome} {n : Nat}
    {t u : Token} (h : tokenize options.toDialect source = .ok tokens)
    (opened : Cursor.ofSource options.toDialect source = .ok c)
    (view : c.upcoming = taken.map .ok ++ .ok u :: rest)
    (same : .grammatical x = x.fault.report u rest)
    (located : (significant tokens)[n]? = some t) (start : x.position = t.start) :
    n = taken.length ∧ t = u ∧
      ∃ others, significant tokens = taken ++ u :: others ∧ others.map .ok = rest := by
  obtain ⟨d, again, upcoming, -⟩ := ofSource_of_tokenize h
  cases opened.symm.trans again
  obtain ⟨front, back, split, first, behind⟩ := List.map_eq_append_iff.mp (upcoming.symm.trans view)
  obtain ⟨v, others, rfl, here, last⟩ := List.map_eq_cons_iff.mp behind
  have ok : Function.Injective (Except.ok : Token → Outcome) := fun _ _ => Except.ok.inj
  obtain rfl := List.map_injective_iff.mpr ok first
  cases here
  have found : (significant tokens)[front.length]? = some u := by
    rw [significant, split]
    simp
  obtain rfl := eq_of_start h located found (start ▸ position_of_report same)
  rw [located] at found
  exact ⟨rfl, Option.some.inj found, others, split, last⟩

/-- Behind the token of a fault nothing makes a program of the text. -/
theorem not_program_of_refused (tokenized : tokenize options.toDialect source = .ok tokens)
    (refused : parse options source = .error (.grammatical x)) (shallow : x.fault ≠ .nestingTooDeep)
    {n : Nat} {t : Token} (located : (significant tokens)[n]? = some t)
    (start : x.position = t.start) (more : t.isEnd = false) {other : String} {others : List Token}
    (alsoTokenized : tokenize options.toDialect other = .ok others)
    (same : ((significant others).take (n + 1)).map (·.spelling) =
      ((significant tokens).take (n + 1)).map (·.spelling)) (depth : Nat) (program : Chunk) :
    parse { options with maxDepth := depth } other ≠ .ok program := by
  intro accepted
  have raised : parseWithin options source (max options.maxDepth depth) = .error (.grammatical x) := by
    refine (parseWithin_eq (fun y same deep => ?_) (Nat.le_max_left _ _)).trans refused
    cases same.symm.trans refused
    exact shallow deep
  have again : parseWithin options other (max options.maxDepth depth) = .ok program := by
    refine (parseWithin_eq (fun y same => ?_) (Nat.le_max_right _ _)).trans accepted
    cases same.symm.trans accepted
  obtain ⟨c, e, opened, run⟩ := parse_refused raised
  obtain ⟨d, f, alsoOpened, read⟩ := parse_ok.mp again
  have legible := Cursor.isLegible_ofSource opened
  obtain ⟨taken, u, rest, view, fault, refuses⟩ := refuses_of_chunk legible run
  obtain ⟨rfl, rfl, others, split, -⟩ := split_of_start tokenized opened view fault located start
  obtain ⟨d', alsoOpened', upcoming, dialect, input⟩ := ofSource_of_tokenize alsoTokenized
  cases alsoOpened.symm.trans alsoOpened'
  refine not_ok_of_refuses refuses shallow more (view ▸ legible.input) ⟨upcoming, dialect, input⟩ ?_ read
  refine same.trans ?_
  rw [split]
  simp [List.take_append]

/-- What stands in front of a fault can be completed to a program, if targets were checked. -/
theorem exists_completion (tokenized : tokenize options.toDialect source = .ok tokens)
    (refused : parseChecked options source = .error (.grammatical x))
    (shallow : x.fault ≠ .nestingTooDeep) {n : Nat} {t : Token}
    (located : (significant tokens)[n]? = some t) (start : x.position = t.start) :
    ∃ other others depth program, tokenize options.toDialect other = .ok others ∧
      ((significant others).take n).map (·.spelling) =
        ((significant tokens).take n).map (·.spelling) ∧
      parse { options with maxDepth := depth } other = .ok program := by
  obtain ⟨c, e, opened, run⟩ := parseChecked_refused refused
  have legible := Cursor.isLegible_ofSource opened
  obtain ⟨taken, u, rest, view, fault, words, proper, goes⟩ :=
    completes_of_chunk legible run shallow
  obtain ⟨rfl, rfl, others, split, -⟩ := split_of_start tokenized opened view fault located start
  have input := view ▸ legible.input
  have all : Proper options.toDialect (taken.map (·.spelling) ++ words) := by
    refine Proper.append_iff.mpr ⟨fun w member => ?_, proper⟩
    obtain ⟨v, inside, rfl⟩ := List.mem_map.mp member
    have more := isEnd_of_mem_front input (List.cons_ne_nil _ _) v inside
    have seen : v ∈ significant tokens := split ▸ List.mem_append_left _ inside
    have other : v.kind ≠ .comment := by simpa [Token.isComment] using (List.mem_filter.mp seen).2
    exact ⟨legible.whole v (by simp [view, inside]) more, other⟩
  obtain ⟨other, tokens', alsoTokenized, allSeen, spelled⟩ := exists_text all
  rw [List.append_assoc] at spelled
  obtain ⟨front, back, rfl, isFront, isBack⟩ := List.map_eq_append_iff.mp spelled
  obtain ⟨d, alsoOpened, upcoming, dialect, seen⟩ := ofSource_of_tokenize alsoTokenized
  have faces : d.Faces options.toDialect ((front ++ back).map .ok) :=
    ⟨upcoming.trans (congrArg _ allSeen), dialect, seen⟩
  obtain ⟨i, joined⟩ : ∃ i : Cursor, i.Faces options.toDialect ((taken ++ back).map .ok) := by
    refine exists_faces _ input (List.cons_ne_nil _ _) ?_
    have behind := faces.input
    rw [faces.upcoming, List.map_append] at behind
    refine behind.of_append fun none => ?_
    rw [List.map_eq_nil_iff.mp none] at isBack
    simp at isBack
  obtain ⟨program, g, read⟩ := goes rfl joined isBack
  obtain ⟨program, f, again⟩ := chunk_of_spellings (by simp [isFront]) joined faces read
  refine ⟨other, _, options.maxDepth + 3, program, alsoTokenized, ?_,
    parse_ok.mpr ⟨d, f, alsoOpened, again⟩⟩
  have length : front.length = taken.length := by
    simpa only [List.length_map] using congrArg List.length isFront
  rw [allSeen, split, ← length, List.take_left, length, List.take_left, isFront]

/-- Unless it is nested too deep, a text that is no program is refused for the first token with
which it is not the beginning of one. Nothing that goes on behind that token in any way is a
program, at any depth; and if no target of an assignment stands before a comma that cannot be
assigned to, what stands in front of the token can be completed to a program. -/
theorem errors_are_at_earliest_token
    (tokenized : tokenize options.toDialect source = .ok tokens)
    (refused : parse options source = .error (.grammatical x)) (shallow : x.fault ≠ .nestingTooDeep)
    {n : Nat} {t : Token} (located : (significant tokens)[n]? = some t)
    (start : x.position = t.start) :
    (t.isEnd = false → ∀ other others depth program,
      tokenize options.toDialect other = .ok others →
      ((significant others).take (n + 1)).map (·.spelling) =
        ((significant tokens).take (n + 1)).map (·.spelling) →
      parse { options with maxDepth := depth } other ≠ .ok program) ∧
    (parseChecked options source = .error (.grammatical x) →
      ∃ other others depth program, tokenize options.toDialect other = .ok others ∧
        ((significant others).take n).map (·.spelling) =
          ((significant tokens).take n).map (·.spelling) ∧
        parse { options with maxDepth := depth } other = .ok program) :=
  ⟨fun more _ _ depth program alsoTokenized same =>
    not_program_of_refused tokenized refused shallow located start more alsoTokenized same depth
      program,
    fun checked => exists_completion tokenized checked shallow located start⟩

/-- Two targets can be the beginning of a program, but not with a name behind them. -/
theorem name_behind_targets_is_refused :
    (∀ other others depth program, tokenize Options.forParser.toDialect other = .ok others →
      ((significant others).take 4).map (·.spelling) =
        [(.identifier, "a"), (.symbol, ","), (.identifier, "b"), (.identifier, "c")] →
      parse { Options.forParser with maxDepth := depth } other ≠ .ok program) ∧
    ∃ other others depth program, tokenize Options.forParser.toDialect other = .ok others ∧
      ((significant others).take 3).map (·.spelling) =
        [(.identifier, "a"), (.symbol, ","), (.identifier, "b")] ∧
      parse { Options.forParser with maxDepth := depth } other = .ok program := by
  have tokenized : tokenize Options.forParser.toDialect "a,b c" = .ok
      [⟨.identifier, "a", ⟨0, 1, 0⟩⟩, ⟨.symbol, ",", ⟨1, 1, 0⟩⟩, ⟨.identifier, "b", ⟨2, 1, 0⟩⟩,
        ⟨.identifier, "c", ⟨4, 1, 0⟩⟩, ⟨.endOfInput, "", ⟨5, 1, 0⟩⟩] := rfl
  have refused : parse .forParser "a,b c" =
      .error (.grammatical ⟨.expected (.text "="), ⟨4, 1, 0⟩, "c"⟩) := rfl
  have checked : parseChecked .forParser "a,b c" =
      .error (.grammatical ⟨.expected (.text "="), ⟨4, 1, 0⟩, "c"⟩) := rfl
  have located : (significant [⟨.identifier, "a", ⟨0, 1, 0⟩⟩, ⟨.symbol, ",", ⟨1, 1, 0⟩⟩,
      ⟨.identifier, "b", ⟨2, 1, 0⟩⟩, ⟨.identifier, "c", ⟨4, 1, 0⟩⟩,
      ⟨.endOfInput, "", ⟨5, 1, 0⟩⟩])[3]? = some ⟨.identifier, "c", ⟨4, 1, 0⟩⟩ := rfl
  obtain ⟨refuses, completed⟩ :=
    errors_are_at_earliest_token tokenized refused (by decide) located rfl
  exact ⟨refuses rfl, completed checked⟩

end Texts

end LuaFrontend
