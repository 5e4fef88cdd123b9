import LuaFrontend.Proofs.LexerTokens
import LuaFrontend.Proofs.ReportedPositions

set_option autoImplicit false

namespace LuaFrontend

section Records

/-- A position as messages give it. -/
def Position.location (p : Position) : Location := ⟨p.line, p.column, p.offset⟩

/-- A token as it is kept. -/
def Token.record (t : Token) : TokenRecord :=
  ⟨t.kind, t.text, t.span, t.start.line, t.start.lineStart, t.isKeyword⟩

/-- An error as it is kept. -/
def LexError.record (e : LexError) : ErrorRecord :=
  ⟨e.fault.record e.start.line, e.position.location, e.near⟩

/-- What a call gives, as it is kept. -/
def Outcome.record : Outcome → Except ErrorRecord TokenRecord
  | .ok t => .ok t.record
  | .error e => .error e.record

end Records

namespace Lexer

open Machine

variable {dialect : Dialect} {source : String} {l : Lexer} {t : Tokenizer} {text : List Char}

/-- A lexer is where a tokenizer is, with the same text ahead. -/
structure Follows (l : Lexer) (t : Tokenizer) : Prop where
  faces : l.Faces t.rest
  here : l.scanner.here = t.here
  dialect : l.dialect = t.dialect

section Preamble

/-- A line for the shell is passed up to its end. -/
def shellLine (text : List Char) : List Char :=
  if ['#', '!'].isPrefixOf text then text.takeWhile (!isLineBreak ·) else []

theorem skipShellLine_eq (h : l.Faces text) :
    (do if ← need ((← head).startsWith? "#!") then
          scan (·.scanUntil (·.holds 0 .lineBreak)) : Action Unit) l =
      some (.ok (), l.moved (shellLine text)) := by
  rw [run_head, h.scanner.startsWith?, run_need, shellLine]
  split
  · next begins =>
    rw [if_pos (show ['#', '!'].isPrefixOf text from begins)]
    exact congrArg (fun scanner => some (Except.ok (), { l with scanner }))
      h.scanner.scanUntil_lineBreak
  · next plain =>
    rw [if_neg (show ¬ ['#', '!'].isPrefixOf text from plain), moved_nil]
    rfl

theorem preamble_of_mark (rest : List Char) :
    preamble ('\uFEFF' :: rest) = '\uFEFF' :: shellLine rest := by
  simp only [preamble, shellLine]
  split <;> simp_all

theorem preamble_of_no_mark (unmarked : text.head? ≠ some '\uFEFF') :
    preamble text = shellLine text := by
  have none : (text.take 1).takeWhile (· == '\uFEFF') = [] := by
    cases text with
    | nil => rfl
    | cons c text => simpa using unmarked
  rw [preamble, none]
  rfl

/-- The preamble is passed without looking for line ends. -/
theorem skipPreamble_eq (h : l.Faces text) :
    skipPreamble l = some (.ok (), l.moved (preamble text)) := by
  rw [skipPreamble, run_head, h.scanner.startsWith?, run_need, run_ite]
  by_cases marked : text.head? = some '\uFEFF'
  · obtain ⟨rest, rfl⟩ := List.head?_eq_some_iff.mp marked
    have behind := h.moved (a := ['\uFEFF'])
    have inline : ∀ c ∈ ['\uFEFF'], isLineBreak c = false := by simp [isLineBreak]
    have passed : { l with scanner := l.scanner.advanceBy 3 } = l.moved ['\uFEFF'] :=
      h.advanceBy (a := ['\uFEFF']) inline
    have begins : "\uFEFF".toList.isPrefixOf ('\uFEFF' :: rest) := rfl
    have both := moved_inline (l := l) inline (shellLine rest)
    rw [if_pos begins, run_scan, passed, preamble_of_mark]
    exact (skipShellLine_eq behind).trans (congrArg (fun m => some (Except.ok (), m)) both)
  · have other : ¬ "\uFEFF".toList.isPrefixOf text := by
      intro begins
      obtain ⟨behind, same⟩ := List.isPrefixOf_iff_prefix.mp begins
      exact marked (same ▸ rfl)
    rw [if_neg other, preamble_of_no_mark marked]
    exact skipShellLine_eq h

end Preamble

/-- A lexeme begins where the lexer is. -/
def begin (l : Lexer) : Lexer :=
  { l with
    scanner := l.scanner.setMark, tokenLine := l.scanner.line,
    tokenLineStart := l.scanner.lineStart }

theorem begin_begin (l : Lexer) : l.begin.begin = l.begin := rfl

theorem Faces.begin (h : l.Faces text) : l.begin.Faces text := by
  refine ⟨⟨h.scanner.bytes, ?_⟩, h.extended⟩
  exact ⟨h.isInText.position_le, Nat.le_refl _, h.isInText.lineStart_le⟩

/-- A call of a lexer that has started. -/
theorem call_of_started (h : l.Faces text) (started : l.started = true) :
    call l = readToken (l.moved (text.takeWhile isSpace)).begin := by
  have gap := skipSpace_eq h
  rw [call, run_get, started]
  change (do skipSpace; _ : Action TokenRecord) l = _
  rw [bind_ok gap]
  rfl

/-- The first call begins behind the preamble. -/
theorem call_of_not_started (h : l.Faces text) (fresh : l.started = false) :
    call l = call { l.moved (preamble text) with started := true } := by
  have behind : { l with started := true }.Faces text := ⟨h.scanner, h.extended⟩
  have passed := skipPreamble_eq behind
  have run : call l = (do
      skipPreamble
      skipSpace
      scan (·.setMark)
      modify fun l => { l with tokenLine := l.scanner.line, tokenLineStart := l.scanner.lineStart }
      readToken : Action TokenRecord) { l with started := true } := by
    rw [call, run_get, fresh]
    rfl
  rw [run, bind_ok passed, call, run_get]
  rfl

section Records

variable {taken rest : List Char}

/-- The text between the mark and the head is what was passed since the lexeme began. -/
theorem capturedText_moved (h : l.Faces (taken ++ rest))
    (marked : l.scanner.mark = l.scanner.position) :
    (l.moved taken).scanner.capturedText = String.ofList taken := by
  have captured := h.scanner.capturedText?_passed marked
  have inside : (l.scanner.passed taken).IsInText := h.moved.isInText
  rw [capturedText?_of_isInText inside] at captured
  exact Option.some.inj captured

variable {r : Lexeme.Reading}

/-- What is kept of a lexeme that begins where the tokenizer is. -/
theorem settle_begin (h : l.Follows t) (split : t.rest = r.taken ++ r.rest) :
    l.begin.settle r = some (Outcome.record (match r.outcome with
      | .ok kind => .ok ⟨kind, String.ofList r.taken, t.here⟩
      | .error fault => .error ⟨fault, t.here, String.ofList r.taken⟩),
      l.begin.moved r.taken) := by
  have faces := h.faces.begin
  rw [split] at faces
  have captured := capturedText_moved faces rfl
  have line : l.scanner.line = t.here.line := congrArg Position.line h.here
  have lineStart : l.scanner.lineStart = t.here.lineStart := congrArg Position.lineStart h.here
  have position : l.scanner.position = t.here.offset := congrArg Position.offset h.here
  have there : (l.begin.moved r.taken).scanner.here = t.here.after r.taken :=
    congrArg (Position.after · r.taken) h.here
  rw [settle]
  cases r.outcome with
  | ok kind =>
    have stop : (l.begin.moved r.taken).scanner.position =
        t.here.offset + (String.ofList r.taken).utf8ByteSize := by
      rw [← byteLength_toList, String.toList_ofList, ← Position.offset_after, ← there]
      rfl
    have record : (l.begin.moved r.taken).token kind =
        Token.record ⟨kind, String.ofList r.taken, t.here⟩ := by
      rw [token, captured, Scanner.captured, stop, Token.record, Token.span, ← position, ← line,
        ← lineStart]
      rfl
    exact congrArg (fun token => some (Except.ok token, l.begin.moved r.taken)) record
  | error fault =>
    have failed {e : ErrorRecord} (same : e = LexError.record ⟨fault, t.here, String.ofList r.taken⟩) :
        some ((Except.error e : Except ErrorRecord TokenRecord), l.begin.moved r.taken) =
          some (Outcome.record (.error ⟨fault, t.here, String.ofList r.taken⟩),
            l.begin.moved r.taken) := by
      rw [same]
      rfl
    have stopped : (l.begin.moved r.taken).report (fault.record l.scanner.line) =
        ⟨fault.record t.here.line, (t.here.after (String.ofList r.taken).toList).location,
          String.ofList r.taken⟩ := by
      rw [report, captured, String.toList_ofList, ← there, line]
      rfl
    cases fault with
    | unexpectedCharacter c =>
      apply failed
      rw [captured, report]
      change (⟨_, ⟨l.scanner.line, l.scanner.position - l.scanner.lineStart + 1,
        l.scanner.position⟩, _⟩ : ErrorRecord) = _
      rw [line, lineStart, position]
      rfl
    | _ => exact failed stopped

end Records

section Calls

/-- Where a call leaves the lexer. -/
def behind (l : Lexer) (t : Tokenizer) : Lexer :=
  (l.moved t.piece.gap).begin.moved (Outcome.text t.next.1).toList

theorem Follows.skipSpace (h : l.Follows t) : (l.moved t.piece.gap).Follows t.skipSpace where
  faces := by
    have split : t.rest = t.piece.gap ++ t.skipSpace.rest := List.takeWhile_append_dropWhile.symm
    exact (split ▸ h.faces : l.Faces (t.piece.gap ++ t.skipSpace.rest)).moved
  here := congrArg (Position.after · t.piece.gap) h.here
  dialect := h.dialect

theorem Follows.behind (h : l.Follows t) : (l.behind t).Follows t.next.2 where
  faces := by
    have split : t.skipSpace.rest = (Outcome.text t.next.1).toList ++ t.next.2.rest := by
      rw [Tokenizer.next, Tokenizer.text_takeLexeme]
      exact (Lexeme.text_read _ _).symm
    have begun := h.skipSpace.faces.begin
    rw [split] at begun
    exact begun.moved
  here := by
    rw [Tokenizer.here_next, Tokenizer.start_next, ← h.here]
    rfl
  dialect := h.dialect

/-- A call gives what the tokenizer gives, as it is kept, and goes as far. -/
theorem call_eq (h : l.Follows t) (started : l.started = true) :
    call l = some (Outcome.record t.next.1, l.behind t) := by
  have begun := h.skipSpace
  have inline : t.skipSpace.rest.head?.any isLineBreak = false := by
    cases first : t.skipSpace.rest.head? with
    | none => rfl
    | some c => exact Tokenizer.isLineBreak_head_skipSpace t first
  have settled := settle_begin (r := Lexeme.read t.dialect t.skipSpace.rest) begun
    (Lexeme.text_read _ _).symm
  rw [call_of_started h.faces started]
  refine (readToken_eq begun.faces.begin rfl inline).trans ?_
  rw [behind, Tokenizer.next, Tokenizer.text_takeLexeme]
  have same : (l.moved t.piece.gap).begin.dialect = t.dialect := h.dialect
  rw [same]
  exact settled

/-- Before the end of the text every call passes something. -/
theorem Follows.remaining_behind_lt (h : l.Follows t) (more : t.isDone = false) :
    (l.behind t).remaining < l.remaining := by
  have ahead : l.remaining = byteLength t.rest := h.faces.remaining
  have behind : (l.behind t).remaining = byteLength t.next.2.rest := h.behind.faces.remaining
  have some := byteLength_eq_zero.not.mpr (Tokenizer.text_next_ne_nil more)
  have split : byteLength t.rest =
      byteLength t.piece.gap + byteLength (Outcome.text t.next.1).toList +
        byteLength t.next.2.rest := by
    rw [← byteLength_append, ← byteLength_append]
    exact congrArg byteLength t.rest_eq_piece
  omega

/-- The next call of the lexer begins where the tokenizer is, which is not before the lexer. -/
def Awaits (l : Lexer) (t : Tokenizer) : Prop :=
  ∃ m : Lexer, m.Follows t ∧ m.started = true ∧ m.remaining ≤ l.remaining ∧ call l = call m

theorem Follows.awaits (h : l.Follows t) (started : l.started = true) : l.Awaits t :=
  ⟨l, h, started, Nat.le_refl _, rfl⟩

theorem faces_ofSource (dialect : Dialect) (source : String) :
    (ofSource dialect source).Faces source.toList :=
  ⟨Scanner.faces_ofString source _, rfl⟩

/-- A fresh lexer passes the preamble first. -/
theorem awaits_ofSource (dialect : Dialect) (source : String) :
    (ofSource dialect source).Awaits (.ofSource dialect source) := by
  have faces := faces_ofSource dialect source
  refine ⟨_, ⟨?_, ?_, rfl⟩, rfl, ?_, call_of_not_started faces rfl⟩
  · rw [← Tokenizer.ofSource_rest dialect source] at faces
    exact ⟨faces.moved.scanner, rfl⟩
  · rfl
  · have later := Scanner.position_passed (ofSource dialect source).scanner
      (preamble source.toList)
    exact Nat.sub_le_sub_left (later ▸ Nat.le_add_right _ _) _

theorem Awaits.call (h : l.Awaits t) : ∃ m : Lexer,
    m.Follows t ∧ m.started = true ∧ m.remaining ≤ l.remaining ∧
      call l = some (Outcome.record t.next.1, m.behind t) := by
  obtain ⟨m, follows, started, near, same⟩ := h
  exact ⟨m, follows, started, near, same.trans (call_eq follows started)⟩

/-- What the first calls give, and where the last of them leaves the lexer. The induction is on their
number, each behind the one before. -/
theorem Awaits.calls_succ (h : l.Awaits t) (number : Nat) : ∃ m : Lexer,
    m.Follows (t.after number) ∧ m.started = true ∧
      calls (number + 1) l =
        some ((t.results (number + 1)).map Outcome.record, m.behind (t.after number)) := by
  induction number generalizing l t with
  | zero =>
    obtain ⟨m, follows, started, -, first⟩ := h.call
    refine ⟨m, follows, started, ?_⟩
    rw [Lexer.calls, first]
    rfl
  | succ number ih =>
    obtain ⟨m, follows, started, -, first⟩ := h.call
    obtain ⟨n, further, still, others⟩ := ih (follows.behind.awaits started)
    refine ⟨n, further, still, ?_⟩
    rw [Lexer.calls, first, Tokenizer.results_succ, List.map_cons]
    change (Lexer.calls (number + 1) (m.behind t)).bind _ = _
    rw [others]
    rfl

theorem Awaits.calls (h : l.Awaits t) (number : Nat) : ∃ m : Lexer,
    calls number l = some ((t.results number).map Outcome.record, m) ∧
      m.Awaits (t.after number) := by
  cases number with
  | zero => exact ⟨l, rfl, h⟩
  | succ number =>
    obtain ⟨m, follows, started, run⟩ := h.calls_succ number
    refine ⟨_, run, ?_⟩
    rw [Tokenizer.after_add]
    exact follows.behind.awaits started

/-- Behind the end of the text the lexer does not change any more. -/
theorem behind_skipSpace (done : t.isDone) : (l.behind t).behind t.skipSpace = l.behind t := by
  have empty : t.skipSpace.rest = [] := List.isEmpty_iff.mp done
  have last : (Outcome.text t.next.1).toList = [] := by
    rw [Tokenizer.next_of_isDone done]
    rfl
  have still : (Outcome.text t.skipSpace.next.1).toList = [] := by
    rw [Tokenizer.next_skipSpace_of_isDone done]
    rfl
  have gap : t.skipSpace.piece.gap = [] := by
    rw [Tokenizer.piece, empty]
    rfl
  rw [behind, gap, still, moved_nil, moved_nil, behind, last, moved_nil, begin_begin]

/-- Behind the end of the text every call gives the end token and leaves the lexer as it is. -/
theorem Follows.calls_end (h : l.Follows t) (started : l.started = true) (done : t.isDone)
    (number : Nat) : Lexer.calls number (l.behind t) =
      some (List.replicate number (.ok t.endToken.record), l.behind t) := by
  have ahead := h.behind
  rw [Tokenizer.next_of_isDone done] at ahead
  have again : Lexer.call (l.behind t) = some (.ok t.endToken.record, l.behind t) := by
    rw [call_eq ahead started, Tokenizer.next_skipSpace_of_isDone done, behind_skipSpace done]
    rfl
  induction number with
  | zero => rfl
  | succ number ih =>
    rw [Lexer.calls, again]
    change (Lexer.calls number (l.behind t)).bind _ = _
    rw [ih]
    rfl

end Calls

end Lexer
end LuaFrontend
