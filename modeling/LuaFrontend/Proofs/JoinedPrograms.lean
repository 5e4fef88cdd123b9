import LuaFrontend.Proofs.ChunkReading
import LuaFrontend.Proofs.JoinedTexts
import LuaFrontend.Proofs.StatementLikeness

set_option autoImplicit false

namespace LuaFrontend

open Outcome (IsInput)

namespace Likeness

open LuaFrontend.Grammar
open LuaFrontend.Parser (many bind_ok pure_ok bind_eq_of_ok bind_eq_of_eq)

variable {L : Likeness} {below other : Below} {statements : List Statement} {c d e f : Cursor}
  {beyond : List Token}

/-- The loop at the second cursor reads statements like these, and goes on where what is before it
matches what is before `e`. -/
def GoesOn (L : Likeness) (other : Below) (statements : List Statement) (d e : Cursor) : Prop :=
  ∃ others k, L.Cursors e k ∧ k.dialect = d.dialect ∧
    List.Forall₂ (L.Same Statement.mapSpans) statements others ∧
    many (statement? other) d =
      (many (statement? other) >>= fun more => pure (others ++ more) : Parser _) k

theorem GoesOn.nil (both : L.Cursors c d) : L.GoesOn other [] d c := by
  refine ⟨[], d, both, rfl, .nil, ?_⟩
  simp only [List.nil_append, bind_pure]

theorem GoesOn.semicolon (reads : ReadsForms other) (input : IsInput d.upcoming)
    (sign : (Pattern.text ";").accepts d.current) (moved : Cursor.advance d = .ok () f)
    (h : L.GoesOn other statements f e) : L.GoesOn other statements d e := by
  obtain ⟨others, k, last, dialect, list, goesOn⟩ := h
  have passes := Cursor.passes_of_advance moved input (Parser.isEnd_of_accepts sign)
  refine ⟨others, k, last, dialect.trans passes.dialect, list, ?_⟩
  rw [statements_of_semicolon reads input sign, bind_eq_of_ok (Parser.liftM_ok.mpr moved), goesOn]

theorem GoesOn.cons (reads : ReadsForms other) (input : IsInput d.upcoming) {s t : Statement}
    (alike : L.Same Statement.mapSpans s t) (first : statement? other d = .ok (some t) f)
    (h : L.GoesOn other statements f e) : L.GoesOn other (s :: statements) d e := by
  obtain ⟨others, k, last, dialect, list, goesOn⟩ := h
  obtain ⟨⟨_, -, passes⟩, -⟩ := reads_statement? reads input first
  refine ⟨t :: others, k, last, dialect.trans passes.dialect, .cons alike list, ?_⟩
  rw [Parser.many_of_some (shrinks_statement? reads) input first, bind_eq_of_eq goesOn]
  simp only [bind_assoc, pure_bind, List.cons_append]

/-- The second text has the same statement. -/
theorem statement?_ok (h : L.RunsForms below other) (both : L.Cursors c d)
    (same : L.token c.current d.current)
    (noSign : (Pattern.text ";").accepts c.current = false) {s : Statement}
    (here : statementHere? below c = .ok (some s) e) :
    ∃ t k, L.Same Statement.mapSpans s t ∧ statement? other d = .ok (some t) k ∧
      L.Cursors e k := by
  have results := runs_statementHere? h both same
  rw [here] at results
  obtain ⟨result, k, there, alike, further⟩ := results.of_ok
  rw [← accepts_eq_of_token same] at noSign
  rw [← statement?_of_other both.other noSign] at there
  cases alike with
  | some alike => exact ⟨_, k, alike, there, further⟩

/-- The second loop has read what the first one gives, whatever it finds behind. -/
theorem goesOn_of_statements (h : L.RunsForms below other) (both : L.Cursors c d)
    (run : many (statement? below) c = .ok statements e) : L.GoesOn other statements d e := by
  induction size : c.upcoming.length using Nat.strong_induction_on generalizing c d statements with
  | _ n ih =>
    have shrinks := shrinks_statement? h.reads
    by_cases sign : (Pattern.text ";").accepts c.current
    · have more := Parser.isEnd_of_accepts sign
      have same := both.sees.token more
      rw [statements_of_semicolon h.reads both.input sign] at run
      obtain ⟨_, f, moved, rest⟩ := bind_ok.mp run
      rw [Parser.liftM_ok] at moved
      obtain ⟨g, alsoMoved, further⟩ := both.advance same moved
      have less := Cursor.length_lt_of_advance moved both.input more
      rw [← accepts_eq_of_token same] at sign
      exact .semicolon h.otherReads both.other sign alsoMoved (ih _ (size ▸ less) further rest rfl)
    · rw [Bool.not_eq_true] at sign
      rw [Parser.many_eq shrinks both.input] at run
      obtain ⟨result, f, first, rest⟩ := bind_ok.mp run
      have here := statement?_of_other both.input sign ▸ first
      cases result with
      | none =>
        -- The first loop ends without having read anything, as if the second one only began.
        obtain ⟨rfl, rfl⟩ := pure_ok.mp rest
        obtain rfl := eq_of_statementHere? here
        exact .nil both
      | some s =>
        obtain ⟨behind, g, ofRest, result⟩ := bind_ok.mp rest
        obtain ⟨rfl, rfl⟩ := pure_ok.mp result
        have same := both.sees.token (isEnd_of_statementHere? here)
        obtain ⟨t, k, alike, alsoFirst, further⟩ := statement?_ok h both same sign here
        have less := (shrinks both.input first).2
        exact .cons h.otherReads both.other alike alsoFirst
          (ih _ (size ▸ less) further ofRest rfl)

/-- Behind a block that does not end in a `return`, the second block goes on as it would without
the statements before. -/
theorem upToEnd_goes_on (h : L.RunsForms below other) (both : L.Cursors c d) {block : Block}
    (run : upToEnd below c = .ok block e)
    (noReturn : ∀ s ∈ block.getLast?, s.isReturn = false) :
    ∃ others k, L.Cursors e k ∧ k.dialect = d.dialect ∧
      L.Same Statement.mapSpansAll block others ∧
      upToEnd other d = (upToEnd other >>= fun more => pure (others ++ more) : Parser _) k := by
  obtain ⟨statements, f, loop, last⟩ := bind_ok.mp run
  obtain ⟨others, k, further, dialect, list, goesOn⟩ := goesOn_of_statements h both loop
  obtain ⟨rfl, rfl⟩ := withReturn_ok h.reads further.input last noReturn
  refine ⟨others, k, further, dialect, ?_, ?_⟩
  · simp only [Same, Statement.mapSpansAll_eq]
    exact same_list list
  · rw [upToEnd, bind_eq_of_eq goesOn]
    simp only [bind_assoc, pure_bind, withReturn_append]

/-- Each token matches itself. Where the first text ends, the second one has a semicolon. -/
def goingOn (beyond : List Token) : Likeness where
  token t u := t = u ∧ t.isEnd = false
  fault _ _ := False
  left := id
  right := id
  pardoned _ := True
  stop t u := t.isEnd ∧ u.kind = .symbol ∧ u.text = ";"
  beyond more := more = beyond.map .ok
  kind := fun ⟨same, _⟩ => congrArg Token.kind same.symm
  text := fun ⟨same, _⟩ => congrArg Token.text same.symm
  span := fun ⟨same, _⟩ => congrArg Token.span same
  isEnd_of_stop h := h.1
  kind_of_stop h := h.2.1
  text_of_stop h := h.2.2
  pardoned_of_stop _ _ := trivial

/-- Each token matches the same one further behind. -/
def shifted (bytes : Nat) : Likeness :=
  ofWhole (Token.IsShifted bytes) (fun _ _ => False) (Span.shift bytes) id (fun _ => False)
    Token.IsShifted.kind Token.IsShifted.text Token.IsShifted.span

theorem matches_goingOn {tokens : List Token} {final : Token} {start : Position}
    (inside : ∀ t ∈ tokens, t.isEnd = false) (last : final.isEnd) :
    (goingOn beyond).Matches ((tokens ++ [final]).map .ok)
      ((tokens ++ ⟨.symbol, ";", start⟩ :: beyond).map .ok) := by
  induction tokens with
  | nil => exact .stop ⟨last, rfl, rfl⟩ rfl
  | cons t tokens ih =>
    have first := inside t List.mem_cons_self
    exact .cons (.token ⟨rfl, first⟩) (ih fun u member => inside u (List.mem_cons_of_mem t member))

/-- Where the first text ends, the second one goes on behind a semicolon. -/
theorem goingOn_of_isEnd (both : (goingOn beyond).Cursors c d)
    (last : c.current.isEnd) :
    (Pattern.text ";").accepts d.current ∧ d.upcoming = .ok d.current :: beyond.map .ok := by
  have same := both.upcoming
  unfold Cursor.upcoming at same ⊢
  generalize c.ready.map Except.ok ++ c.pending.filter Outcome.isSignificant = rest at same
  generalize d.ready.map Except.ok ++ d.pending.filter Outcome.isSignificant = more at same ⊢
  cases same with
  | cons first _ =>
    cases first with
    | token same =>
      rw [same.2] at last
      contradiction
  | stop sign behind =>
    obtain ⟨-, kind, text⟩ := sign
    refine ⟨?_, congrArg _ behind⟩
    simp [Pattern.accepts, kind, text, Pattern.isFreelySpelled]

theorem matches_shifted {bytes : Nat} {tokens others : List Token}
    (h : List.Forall₂ (Token.IsShifted bytes) tokens others) :
    (shifted bytes).Matches (tokens.map .ok) (others.map .ok) := by
  apply Matches.of_forall₂
  rw [List.forall₂_map_left_iff, List.forall₂_map_right_iff]
  exact h.imp fun _ _ => Outcomes.token

/-- Behind a block and a semicolon, what is beyond is read as a block of its own. -/
theorem upToEnd_beyond (h : (goingOn beyond).RunsForms below other)
    (both : (goingOn beyond).Cursors c d) {block : Block}
    (run : upToEnd below c = .ok block e) (last : e.current.isEnd)
    (noReturn : ∀ s ∈ block.getLast?, s.isReturn = false) (some : beyond ≠ []) :
    ∃ k, k.upcoming = beyond.map .ok ∧ k.dialect = d.dialect ∧ IsInput k.upcoming ∧
      upToEnd other d = (upToEnd other >>= fun more => pure (block ++ more) : Parser _) k := by
  obtain ⟨others, f, further, dialect, same, goesOn⟩ := upToEnd_goes_on h both run noReturn
  obtain ⟨sign, view⟩ := goingOn_of_isEnd further last
  have equal : others = block := by
    have mapped : Statement.mapSpansAll id block = Statement.mapSpansAll id others := same
    rw [Statement.mapSpansAll_id, Statement.mapSpansAll_id] at mapped
    exact mapped.symm
  obtain ⟨t, more, rfl⟩ := List.exists_cons_of_ne_nil some
  obtain ⟨k, moved, passes⟩ := Cursor.advance_of_token view
  have rest := passes.upcoming
  rw [view] at rest
  refine ⟨k, (List.cons.inj rest).2.symm, passes.dialect.trans dialect,
    passes.input further.other, ?_⟩
  rw [goesOn, equal]
  exact bind_eq_of_eq (upToEnd_of_semicolon h.otherReads further.other sign moved)

/-- The same tokens further behind are the same block further behind. -/
theorem upToEnd_shifted {bytes depth : Nat} (both : (shifted bytes).Cursors c d) {block : Block}
    (run : upToEnd (levels depth) c = .ok block e) (last : e.current.isEnd) :
    ∃ k, upToEnd (levels depth) d = .ok (Statement.mapSpansAll (Span.shift bytes) block) k ∧
      k.current.isEnd := by
  have depths : (shifted bytes).SameDepths depth depth := .inl rfl
  have results := (partly_upToEnd (runs_levels depths)).runs (fun _ _ => id) both both.sees
  rw [run] at results
  obtain ⟨other, k, again, same, further⟩ := results.of_ok
  have mapped : Statement.mapSpansAll (Span.shift bytes) block = Statement.mapSpansAll id other :=
    same
  rw [Statement.mapSpansAll_id] at mapped
  refine ⟨k, mapped ▸ again, ?_⟩
  rw [isEnd_eq (further.sees.resolve_right id)]
  exact last

end Likeness

section Programs

open LuaFrontend.Grammar
open LuaFrontend.Parser (bind_ok pure_ok current_bind production_ok liftM_ok bind_eq_of_ok)

variable {options : Options} {dialect : Dialect} {source : String} {chunk : Chunk}
  {tokens : List Token} {c d : Cursor} {depth : Nat}

/-- A program is a block up to the end token. -/
theorem upToEnd_of_chunk (run : Grammar.chunk depth c = .ok chunk d) :
    ∃ less e, depth = less + 1 ∧ upToEnd (levels less)
      ((c.record (.enter .chunk)).record (.enter .block)) = .ok chunk.block e ∧
        e.current.isEnd := by
  obtain ⟨e, body, rfl⟩ := production_ok.mp run
  obtain ⟨block, f, ofBlock, run₁⟩ := bind_ok.mp body
  cases depth with
  | zero => exact (Parser.not_failHere_ok ofBlock).elim
  | succ less =>
    obtain ⟨g, inner, rfl⟩ := production_ok.mp ofBlock
    rw [current_bind] at run₁
    split at run₁
    · next last =>
      obtain ⟨comments, k, -, result⟩ := bind_ok.mp run₁
      obtain ⟨rfl, rfl⟩ := pure_ok.mp result
      exact ⟨less, g, rfl, inner, last⟩
    · exact (Parser.not_unexpected_ok run₁).elim

theorem chunk_of_upToEnd {block : Block} (run : upToEnd (levels depth)
      ((c.record (.enter .chunk)).record (.enter .block)) = .ok block d)
    (last : d.current.isEnd) :
    ∃ comments e, Grammar.chunk (depth + 1) c = .ok ⟨block, comments⟩ e := by
  have inner : levels (depth + 1) .block (c.record (.enter .chunk)) =
      .ok block (d.record (.exit .block)) := production_ok.mpr ⟨d, run, rfl⟩
  let left := d.record (.exit .block)
  refine ⟨left.comments.map .ofToken, _, production_ok.mpr ⟨{ left with aside := [] }, ?_, rfl⟩⟩
  rw [bind_eq_of_ok inner, current_bind]
  exact congrFun (if_pos last) _

theorem limit_of_parse (h : parse options source = .ok chunk) :
    ∃ less, options.maxDepth = less + 1 := by
  obtain ⟨c, d, opened, run⟩ := parse_ok.mp h
  obtain ⟨less, e, limit, -⟩ := upToEnd_of_chunk run
  exact ⟨less, limit⟩

/-- At the first statement of a text without faulty lexemes. -/
structure Cursor.Begins (c : Cursor) (dialect : Dialect) (tokens : List Token) (final : Token) :
    Prop where
  upcoming : c.upcoming = (tokens.filter (!·.isComment) ++ [final]).map .ok
  dialect : c.dialect = dialect
  input : IsInput c.upcoming

/-- A text without faulty lexemes is a program if its tokens are a block, comments apart. -/
theorem parse_of_items (items : (Lexed.ofSource options.toDialect source).items = tokens.map .ok)
    (limit : options.maxDepth = depth + 1) :
    ∃ c : Cursor,
      c.Begins options.toDialect tokens (Lexed.ofSource options.toDialect source).final ∧
      ∀ chunk, parse options source = .ok chunk ↔
        (∃ d, upToEnd (levels depth) c = .ok chunk.block d ∧ d.current.isEnd) ∧
          chunk.comments = (tokens.filter (·.isComment)).map .ofToken := by
  cases opened : Cursor.ofSource options.toDialect source with
  | error refusal =>
    have member := ofSource_error opened
    rw [items] at member
    simp at member
  | ok c =>
    obtain ⟨upcoming, remarks, dialect, input, closed⟩ := ofSource_view opened
    have seen : c.upcoming = (tokens.filter (!·.isComment) ++
        [(Lexed.ofSource options.toDialect source).final]).map .ok := by
      rw [upcoming, items, List.filter_map, List.map_append]
      rfl
    have comments : c.remarks = tokens.filter (·.isComment) := by
      rw [remarks, items, List.filterMap_map]
      exact congrFun List.filterMap_eq_filter tokens
    refine ⟨(c.record (.enter .chunk)).record (.enter .block), ⟨seen, dialect, input⟩, ?_⟩
    intro chunk
    constructor
    · intro parsed
      obtain ⟨c', d, alsoOpened, run⟩ := parse_ok.mp parsed
      obtain rfl : c = c' := Except.ok.inj (opened.symm.trans alsoOpened)
      obtain ⟨less, e, same, inner, last⟩ := upToEnd_of_chunk run
      obtain rfl : less = depth := by omega
      obtain ⟨-, -, -, -, -, kept⟩ := Grammar.chunk_ok input closed run
      exact ⟨⟨e, inner, last⟩, comments ▸ kept⟩
    · rintro ⟨⟨d, run, last⟩, kept⟩
      obtain ⟨list, e, whole⟩ := chunk_of_upToEnd run last
      obtain ⟨-, -, -, -, -, same⟩ := Grammar.chunk_ok input closed whole
      rw [comments, ← kept] at same
      obtain rfl : list = chunk.comments := same
      exact parse_ok.mpr ⟨c, e, opened, limit ▸ whole⟩

theorem comments_of_shifted {bytes : Nat} {tokens others : List Token}
    (h : List.Forall₂ (Token.IsShifted bytes) tokens others) :
    ((tokens.filter (·.isComment)).map Comment.ofToken).map (·.mapSpan (Span.shift bytes)) =
      (others.filter (·.isComment)).map Comment.ofToken := by
  have comments := Token.IsShifted.filter (fun _ _ same => same.isComment) h
  rw [List.map_map]
  apply map_eq_map_of_forall₂
  refine comments.imp fun t u same => ?_
  simp only [Function.comp, Comment.ofToken, Comment.mapSpan, same.span, same.text]

/-- The first program is before both cursors, and more is behind it for the second one. -/
theorem cursors_goingOn {more : List Token} {final last : Token} {start : Position}
    (h : c.Begins dialect tokens final)
    (g : d.Begins dialect (tokens ++ ⟨.symbol, ";", start⟩ :: more) last)
    (inside : ∀ t ∈ tokens, t.isEnd = false) (ends : final.isEnd) :
    (Likeness.goingOn (more.filter (!·.isComment) ++ [last])).Cursors c d := by
  refine ⟨?_, .inl (by rw [h.dialect, g.dialect]), h.input, g.input⟩
  rw [h.upcoming, g.upcoming, List.filter_append, List.filter_cons_of_pos rfl, List.append_assoc]
  exact Likeness.matches_goingOn (fun t member => inside t (List.mem_of_mem_filter member)) ends

/-- The second program is before both cursors, further behind for the second one. -/
theorem cursors_shifted {bytes : Nat} {others : List Token} {final last : Token}
    (h : c.Begins dialect tokens final)
    (view : d.upcoming = (others.filter (!·.isComment) ++ [last]).map .ok)
    (same : d.dialect = dialect) (input : IsInput d.upcoming)
    (each : List.Forall₂ (Token.IsShifted bytes) tokens others)
    (ends : final.IsShifted bytes last) : (Likeness.shifted bytes).Cursors c d := by
  refine ⟨?_, .inl (by rw [h.dialect, same]), h.input, input⟩
  have seen := Token.IsShifted.filter (p := (!·.isComment))
    (fun _ _ same => congrArg _ same.isComment) each
  rw [h.upcoming, view]
  exact Likeness.matches_shifted (List.rel_append seen (.cons ends .nil))

/-- Two programs with a semicolon on a line of its own between them are one program, if the first
does not end in a `return` and the second does not begin with a mark or a line that only a file may
begin with. The statements and comments of the first are unchanged, and those of the second follow,
as many bytes further behind as the first text and the line have. -/
theorem parse_joined {first second : String} {a b : Chunk}
    (isFirst : parse options first = .ok a) (isSecond : parse options second = .ok b)
    (noReturn : ∀ s ∈ a.block.getLast?, s.isReturn = false)
    (noMark : second.toList.head? ≠ some '\uFEFF') (noShell : ¬ ['#', '!'] <+: second.toList) :
    let behind := b.mapSpans (Span.shift (first.utf8ByteSize + 3))
    parse options (first ++ "\n;\n" ++ second) =
      .ok ⟨a.block ++ behind.block, a.comments ++ behind.comments⟩ := by
  intro behind
  obtain ⟨less, limit⟩ := limit_of_parse isFirst
  obtain ⟨tokens, items₁, -⟩ := tokens_of_parse isFirst
  obtain ⟨others, items₂, -⟩ := tokens_of_parse isSecond
  obtain ⟨start, more, items, each, final⟩ :=
    Lexed.ofSource_joined items₁ items₂ (preamble_eq_nil noMark noShell)
  obtain ⟨c₁, begins₁, parsed₁⟩ := parse_of_items items₁ limit
  obtain ⟨c₂, begins₂, parsed₂⟩ := parse_of_items items₂ limit
  obtain ⟨d, begins, parsed⟩ := parse_of_items items limit
  obtain ⟨⟨e₁, run₁, last₁⟩, comments₁⟩ := (parsed₁ a).mp isFirst
  obtain ⟨⟨e₂, run₂, last₂⟩, comments₂⟩ := (parsed₂ b).mp isSecond
  have inside : ∀ t ∈ tokens, t.isEnd = false := by
    intro t member
    apply Lexed.isEnd_of_mem_items options.toDialect first
    rw [items₁]
    exact List.mem_map_of_mem member
  have both := cursors_goingOn begins₁ begins inside (Lexed.isEnd_final _ _)
  obtain ⟨k, view, dialect, input, goesOn⟩ := Likeness.upToEnd_beyond
    (Likeness.runs_levels (.inl rfl)) both run₁ last₁ noReturn (by simp)
  have further := cursors_shifted begins₂ view (dialect.trans begins.dialect) input each final
  obtain ⟨l, run, last⟩ := Likeness.upToEnd_shifted further run₂ last₂
  rw [parsed]
  refine ⟨⟨l, ?_, last⟩, ?_⟩
  · rw [goesOn, bind_eq_of_ok run]
    rfl
  · change a.comments ++ b.comments.map _ = _
    rw [comments₁, comments₂, comments_of_shifted each, List.filter_append,
      List.filter_cons_of_neg (by simp [Token.isComment]), List.map_append]

/-- A comment at the end of the first program, and a call behind it. -/
theorem parse_assignment_joined_to_call :
    let first := "x=1--c"
    let second := "f()"
    let a : Chunk := ⟨[.assignment [.name ⟨"x", ⟨0, 1⟩⟩] [.literal ⟨.number, "1", ⟨2, 3⟩⟩]],
      [⟨"--c", ⟨3, 6⟩⟩]⟩
    parse .forParser first = .ok a ∧
      parse .forParser second = .ok ⟨[.call (.call (.name ⟨"f", ⟨0, 1⟩⟩) (.list []))], []⟩ ∧
      (∀ s ∈ a.block.getLast?, s.isReturn = false) ∧
      second.toList.head? ≠ some '\uFEFF' ∧ ¬ ['#', '!'] <+: second.toList ∧
      parse .forParser (first ++ "\n;\n" ++ second) =
        .ok ⟨a.block ++ [.call (.call (.name ⟨"f", ⟨9, 10⟩⟩) (.list []))], a.comments⟩ := by
  have isFirst : parse .forParser "x=1--c" = .ok ⟨[.assignment [.name ⟨"x", ⟨0, 1⟩⟩]
      [.literal ⟨.number, "1", ⟨2, 3⟩⟩]], [⟨"--c", ⟨3, 6⟩⟩]⟩ := rfl
  have isSecond : parse .forParser "f()" =
      .ok ⟨[.call (.call (.name ⟨"f", ⟨0, 1⟩⟩) (.list []))], []⟩ := rfl
  have noReturn : ∀ s ∈ [Statement.assignment [.name ⟨"x", ⟨0, 1⟩⟩]
      [.literal ⟨.number, "1", ⟨2, 3⟩⟩]].getLast?, s.isReturn = false := by
    intro s member
    cases member
    rfl
  exact ⟨isFirst, isSecond, noReturn, by decide, by decide,
    parse_joined isFirst isSecond noReturn (by decide) (by decide)⟩

end Programs
end LuaFrontend
