import LuaFrontend.Proofs.TextCut
import LuaFrontend.Proofs.ViablePrefix

set_option autoImplicit false

namespace LuaFrontend

open LuaFrontend.Grammar
open LuaFrontend.Parser
open Outcome (IsInput)

/-- The message about the fault quotes what is behind the token. -/
def SyntaxFault.isUnexpected : SyntaxFault → Bool
  | .unexpected _ _ => true
  | _ => false

theorem Cursor.opening_of_token {dialect : Dialect} {final : Token} {aside tokens : List Token}
    {more : List Outcome} (some : tokens.filter (!·.isComment) ≠ []) :
    ∃ c, opening dialect final aside (tokens.map .ok ++ more) = .ok c := by
  induction tokens generalizing aside with
  | nil => exact absurd rfl some
  | cons t tokens ih =>
    rw [List.map_cons, List.cons_append, opening]
    split
    · next comment => exact ih (by simpa [comment] using some)
    · exact ⟨_, rfl⟩

/-- A text with a token can be opened, and shows its tokens up to any of its items. -/
theorem exists_faces_of_items {dialect : Dialect} {source : String} {tokens : List Token}
    {more : List Outcome}
    (items : (Lexed.ofSource dialect source).items = tokens.map .ok ++ more)
    (some : tokens.filter (!·.isComment) ≠ []) :
    ∃ d, Cursor.ofSource dialect source = .ok d ∧
      d.Faces dialect ((tokens.filter (!·.isComment)).map .ok ++ (more.filter Outcome.isSignificant ++
        [.ok (Lexed.ofSource dialect source).final])) := by
  obtain ⟨d, opened⟩ := @Cursor.opening_of_token dialect (Lexed.ofSource dialect source).final []
    tokens more some
  rw [← items] at opened
  obtain ⟨view, -, same, input, -⟩ := ofSource_view opened
  refine ⟨d, opened, ?_, same, input⟩
  rw [view, items, List.filter_append, List.filter_map, List.append_assoc]
  rfl

section Reports

variable {fault : SyntaxFault} {t next : Token} {e : LexError} {x : SyntaxError}
  {rest more : List Outcome}

/-- A report quotes no more than the next token. -/
theorem SyntaxFault.report_of_next : fault.report t (.ok next :: more) =
    fault.report t (.ok next :: rest) := by
  cases fault <;> rfl

/-- Before a faulty lexeme only an unexpected token is not reported. -/
theorem SyntaxFault.report_of_lexeme (h : .grammatical x = x.fault.report t rest) :
    x.fault.report t (.error e :: more) =
      if x.fault.isUnexpected then .lexical e else .grammatical x := by
  by_cases unexpected : x.fault.isUnexpected
  · rw [if_pos unexpected]
    generalize x.fault = fault at unexpected
    cases fault <;> first | rfl | cases unexpected
  · have other : ∀ kind text, x.fault ≠ .unexpected kind text := fun _ _ same => by
      rw [same] at unexpected
      exact unexpected rfl
    rw [if_neg unexpected, h, report_of_other other, report_of_other other]

end Reports

section Cuts

variable {options : Options} {source cut : String} {e : LexError} {tokens : List Token}

/-- The cut text ends where the other one has its first faulty lexeme. -/
theorem upcoming_of_isCutAt (faulty : tokenize options.toDialect source = .error e)
    (isCut : IsCutAt source e cut) (tokenized : tokenize options.toDialect cut = .ok tokens)
    {t : Token} (member : t ∈ significant tokens) (inside : t.isEnd = false) :
    ∃ (front : List Token) (final : Token) (more : List Outcome) (d : Cursor),
      significant tokens = front ++ [final] ∧ final.isEnd ∧
      Cursor.ofSource options.toDialect source = .ok d ∧
      d.Faces options.toDialect (front.map .ok ++ .error e :: more) := by
  obtain ⟨before, more, items⟩ := tokenize_error.mp faulty
  rw [List.append_assoc, List.singleton_append] at items
  have same := @items_inFront _ _ _ _ _ (.error e) isCut.1 isCut.2 items.symm
  obtain ⟨others, alsoItems, rfl⟩ := tokenize_ok.mp tokenized
  have ok : Function.Injective (Except.ok : Token → Outcome) := fun _ _ => Except.ok.inj
  obtain rfl := List.map_injective_iff.mpr ok (alsoItems.symm.trans same)
  have last := Lexed.isEnd_final options.toDialect cut
  have shown : (Lexed.ofSource options.toDialect cut).final.isComment = false := by
    simp_all [Token.isComment, Token.isEnd]
  have split : significant (others ++ [(Lexed.ofSource options.toDialect cut).final]) =
      significant others ++ [(Lexed.ofSource options.toDialect cut).final] := by
    simp [significant, shown]
  have some : others.filter (!·.isComment) ≠ [] := by
    intro none
    rw [split, significant, none, List.nil_append, List.mem_singleton] at member
    rw [member, last] at inside
    cases inside
  obtain ⟨d, alsoOpened, faces⟩ := exists_faces_of_items items.symm some
  exact ⟨significant others, _, _, d, split, last, alsoOpened, faces⟩

/-- In front of the first faulty lexeme there is nothing but tokens. -/
theorem exists_tokens_of_isCutAt (faulty : tokenize options.toDialect source = .error e)
    (isCut : IsCutAt source e cut) : ∃ tokens, tokenize options.toDialect cut = .ok tokens := by
  obtain ⟨before, more, items⟩ := tokenize_error.mp faulty
  rw [List.append_assoc, List.singleton_append] at items
  have same := @items_inFront _ _ _ _ _ (.error e) isCut.1 isCut.2 items.symm
  exact ⟨_, tokenize_ok.mpr ⟨before, same, rfl⟩⟩

/-- A text whose cut is refused for a token is refused for it too. An unexpected token that is the
last one before the faulty lexeme is not reported, but the lexeme; and where a level of nesting is
missing there, the lexeme may have been looked at before. -/
theorem parse_of_cut_refused {x : SyntaxError}
    (faulty : tokenize options.toDialect source = .error e) (isCut : IsCutAt source e cut)
    (refused : parse options cut = .error (.grammatical x)) :
    ∃ tokens, tokenize options.toDialect cut = .ok tokens ∧
      ∀ (n : Nat) (t : Token), (significant tokens)[n]? = some t → x.position = t.start →
        t.isEnd = false →
        (x.fault ≠ .nestingTooDeep → parse options source = .error
          (if n + 2 = (significant tokens).length ∧ x.fault.isUnexpected then .lexical e
            else .grammatical x)) ∧
        (x.fault = .nestingTooDeep → parse options source = .error (.grammatical x) ∨
          n + 2 = (significant tokens).length ∧ parse options source = .error (.lexical e)) := by
  obtain ⟨tokens, tokenized⟩ := exists_tokens_of_isCutAt faulty isCut
  refine ⟨tokens, tokenized, fun n t located start inside => ?_⟩
  obtain ⟨c, f, opened, run⟩ := parse_refused refused
  obtain ⟨taken, u, rest, view, report, refuses⟩ :=
    refuses_of_chunk (Cursor.isLegible_ofSource opened) run
  obtain ⟨rfl, rfl, others, split, rfl⟩ := split_of_start tokenized opened view report located start
  obtain ⟨front, final, more, d, whole, last, alsoOpened, faces⟩ :=
    upcoming_of_isCutAt faulty isCut tokenized (List.mem_of_getElem? located) inside
  -- The fault is in front of the end token, which is where the lexeme stands in the whole text.
  obtain ⟨back, rfl, rfl⟩ : ∃ back, front = taken ++ t :: back ∧ others = back ++ [final] := by
    have same := split.symm.trans whole
    rcases List.eq_nil_or_concat' others with rfl | ⟨back, u, rfl⟩
    · obtain ⟨-, only⟩ := List.append_inj' same rfl
      rw [List.head_eq_of_cons_eq only, last] at inside
      cases inside
    · rw [← List.cons_append, ← List.append_assoc] at same
      obtain ⟨inFront, only⟩ := List.append_inj' same rfl
      exact ⟨back, inFront.symm, by rw [List.head_eq_of_cons_eq only]⟩
  rw [List.map_append, List.append_assoc, List.map_cons, List.cons_append] at faces
  have fails {y : Error} {g : Cursor} (failed : chunk options.maxDepth d = .error y g) :
      parse options source = .error y := by
    rw [parse, Report.ofSource, alsoOpened]
    simp only [failed]
  have count : (significant tokens).length = taken.length + back.length + 2 := by
    rw [split]
    simp only [List.length_append, List.length_cons, List.length_nil]
    omega
  cases back with
  | nil =>
    obtain ⟨y, g, failed, repeats⟩ := refuses faces fun _ => .inr ⟨e, rfl⟩
    have same : Repeats x.fault t (.error e :: more) y := repeats
    have isLast : taken.length + 2 = (significant tokens).length := count.symm
    rw [Repeats, SyntaxFault.report_of_lexeme report] at same
    rw [fails failed]
    refine ⟨fun shallow => ?_, fun deep => ?_⟩
    · simp only [isLast, true_and]
      rw [same.resolve_right fun other => shallow other.1]
    · rw [deep] at same
      rcases same with same | ⟨-, f, found, same⟩
      · exact .inl (congrArg _ same)
      · cases found
        exact .inr ⟨isLast, congrArg _ same⟩
  | cons next back =>
    obtain ⟨y, g, failed, repeats⟩ := refuses faces fun _ => .inl rfl
    have same : y = .grammatical x := by
      rcases repeats with same | ⟨-, f, found, -⟩
      · exact same.trans (SyntaxFault.report_of_next.trans report.symm)
      · cases found
    rw [fails failed, same, if_neg fun short => ?_]
    · exact ⟨fun _ => rfl, fun _ => .inl rfl⟩
    · rw [List.length_cons] at count
      omega

/-- A bracket that closes nothing is reported, and the unfinished string behind it is not. -/
theorem unexpected_bracket_before_lexeme :
    parse .forParser "x ) = 'a" =
      .error (.grammatical ⟨.unexpected .symbol ")", ⟨2, 1, 0⟩, "="⟩) := by
  have faulty : tokenize Options.forParser.toDialect "x ) = 'a" =
      .error ⟨.unfinishedString, ⟨6, 1, 0⟩, "'a"⟩ := by decide +kernel
  have isCut : IsCutAt "x ) = 'a" ⟨.unfinishedString, ⟨6, 1, 0⟩, "'a"⟩ "x ) = " :=
    ⟨⟨['\'', 'a'], by decide⟩, by decide⟩
  have tokenized : tokenize Options.forParser.toDialect "x ) = " = .ok
      [⟨.identifier, "x", ⟨0, 1, 0⟩⟩, ⟨.symbol, ")", ⟨2, 1, 0⟩⟩, ⟨.symbol, "=", ⟨4, 1, 0⟩⟩,
        ⟨.endOfInput, "", ⟨6, 1, 0⟩⟩] := rfl
  have refused : parse .forParser "x ) = " =
      .error (.grammatical ⟨.unexpected .symbol ")", ⟨2, 1, 0⟩, "="⟩) := rfl
  have located : (significant [⟨.identifier, "x", ⟨0, 1, 0⟩⟩, ⟨.symbol, ")", ⟨2, 1, 0⟩⟩,
      ⟨.symbol, "=", ⟨4, 1, 0⟩⟩, ⟨.endOfInput, "", ⟨6, 1, 0⟩⟩])[1]? =
        some ⟨.symbol, ")", ⟨2, 1, 0⟩⟩ := rfl
  obtain ⟨tokens, same, reports⟩ := parse_of_cut_refused faulty isCut refused
  rw [tokenized] at same
  obtain rfl := Except.ok.inj same
  have reported := (reports 1 _ located rfl rfl).1 (by decide)
  have notLast : ¬ (1 + 2 = (significant [⟨.identifier, "x", ⟨0, 1, 0⟩⟩, ⟨.symbol, ")", ⟨2, 1, 0⟩⟩,
      ⟨.symbol, "=", ⟨4, 1, 0⟩⟩, ⟨.endOfInput, "", ⟨6, 1, 0⟩⟩]).length ∧
        (SyntaxFault.unexpected .symbol ")").isUnexpected) := by decide
  rwa [if_neg notLast] at reported

/-- A name that nothing allows is the first fault of a text. The string behind it is reported
instead, because it is to be quoted. -/
theorem lexeme_comes_before_unexpected_name :
    tokenize Options.forParser.toDialect "x y 'a" =
        .error ⟨.unfinishedString, ⟨4, 1, 0⟩, "'a"⟩ ∧
      IsCutAt "x y 'a" ⟨.unfinishedString, ⟨4, 1, 0⟩, "'a"⟩ "x y " ∧
      parse .forParser "x y " =
        .error (.grammatical ⟨.unexpected .identifier "y", ⟨2, 1, 0⟩, "<eof>"⟩) ∧
      parse .forParser "x y 'a" = .error (.lexical ⟨.unfinishedString, ⟨4, 1, 0⟩, "'a"⟩) :=
  ⟨rfl, ⟨⟨['\'', 'a'], by decide⟩, by decide⟩, rfl, rfl⟩

end Cuts
end LuaFrontend
