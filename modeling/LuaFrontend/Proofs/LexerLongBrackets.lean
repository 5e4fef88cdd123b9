import LuaFrontend.Proofs.LexerCalls
import LuaFrontend.Proofs.TextCut

set_option autoImplicit false

namespace LuaFrontend.Lexer

open Lexeme

variable {dialect : Dialect} {source : String} {l : Lexer} {t : Tokenizer}

/-- What one call gives for a lexeme that begins at this offset of the source, with this much of the
source behind it. -/
structure ClosesFirst (source : String) (start : Nat) (rest : List Char)
    (result : Except ErrorRecord TokenRecord) : Prop where
  /-- A long bracket is read to the end of the first word that closes it. -/
  closed : ∀ (form : LongForm) level inside,
    rest = form.lead ++ (opening level ++ inside) → closing level <:+: inside →
    ∃ before after, IsFirstOccurrence (closing level) inside before after ∧
      let text := form.lead ++ opening level ++ (before ++ closing level)
      ∃ t, result = .ok t ∧ t.kind = form.kind ∧ t.text = String.ofList text ∧
        t.span = ⟨start, start + byteLength text⟩
  /-- Without such a word the error is at the end of the source, and has the line on which the
  bracket was opened. -/
  unclosed : ∀ (form : LongForm) level inside,
    rest = form.lead ++ (opening level ++ inside) → ¬ closing level <:+: inside →
    ∃ e, result = .error e ∧ e.location.offset = source.utf8ByteSize ∧
      e.fault =
        form.fault.record (lineAt source.toList (start + byteLength form.lead)).line
  /-- A bracket and signs without a second bracket. -/
  broken : ∀ signs behind, signs ≠ [] → (∀ c ∈ signs, c = '=') →
    behind.head? ≠ some '=' → behind.head? ≠ some '[' → rest = '[' :: (signs ++ behind) →
    ∃ e, result = .error e ∧ e.fault = .invalidLongStringDelimiter ∧
      e.near = String.ofList ('[' :: signs)
  /-- Two dashes without a long bracket. -/
  line : ∀ line behind, (∀ level, ¬ opening level <+: line ++ behind) →
    (∀ c ∈ line, isLineBreak c = false) → (∀ c ∈ behind.head?, isLineBreak c) →
    rest = '-' :: '-' :: (line ++ behind) →
    let text := '-' :: '-' :: line
    ∃ t, result = .ok t ∧ t.kind = .comment ∧ t.text = String.ofList text ∧
      t.span = ⟨start, start + byteLength text⟩

theorem span_record (kind : TokenKind) (text : List Char) (start : Position) :
    (Token.record ⟨kind, String.ofList text, start⟩).span =
      ⟨start.offset, start.offset + byteLength text⟩ := by
  rw [← String.toList_ofList (l := text), byteLength_toList, String.toList_ofList]
  rfl

theorem closesFirst_record (stands : t.skipSpace.StandsIn source.toList) :
    ClosesFirst source t.skipSpace.here.offset t.skipSpace.rest (Outcome.record t.next.1) where
  closed form level inside begins closes := by
    obtain ⟨before, after, first⟩ := exists_firstOccurrence closes
    refine ⟨before, after, first, _, ?_, rfl, rfl, span_record _ _ _⟩
    rw [Tokenizer.next_of_closed begins first]
    rfl
  unclosed form level inside begins never := by
    have fault : (⟨form.fault, t.skipSpace.here, String.ofList t.skipSpace.rest⟩ :
        LexError).fault = form.fault := rfl
    have line := stands.line_eq begins form.inline_lead
    rw [form.line_after_lead] at line
    refine ⟨_, congrArg Outcome.record (Tokenizer.next_of_unclosed begins never), ?_, ?_⟩
    · change (LexError.position _).offset = _
      rw [LongForm.position_eq fault, String.toList_ofList, Position.offset_after,
        ← stands.offset_add]
    · rw [line]
      rfl
  broken signs behind some all noSign noBracket begins := by
    have read := read_brokenOpening t.dialect some all noSign noBracket
    refine ⟨_, congrArg Outcome.record (Tokenizer.next_of_part (begins ▸ read)), rfl, rfl⟩
  line line behind opensNot inline stops begins := by
    have read := read_lineComment t.dialect opensNot inline stops
    refine ⟨_, congrArg Outcome.record (Tokenizer.next_of_part (begins ▸ read)), rfl, rfl, ?_⟩
    exact span_record _ _ _

/-- A call after these gives what the tokenizer gives, and marks where the lexeme begins. -/
theorem exists_call (dialect : Dialect) (source : String) (number : Nat) :
    ∃ results l m, calls number (ofSource dialect source) = some (results, l) ∧
      call l = some (Outcome.record ((Tokenizer.ofSource dialect source).after number).next.1, m) ∧
      m.scanner.mark =
        ((Tokenizer.ofSource dialect source).after number).skipSpace.here.offset := by
  obtain ⟨l, run, awaits⟩ := (awaits_ofSource dialect source).calls number
  obtain ⟨m, follows, -, -, next⟩ := awaits.call
  refine ⟨_, l, _, run, next, ?_⟩
  rw [← follows.skipSpace.here]
  rfl

/-- After any calls, what the next one gives for a lexeme in long brackets ends with the first
occurrence of what closes it. -/
theorem calls_close_first (dialect : Dialect) (source : String) (number : Nat) :
    ∃ results l result m passed rest,
      calls number (ofSource dialect source) = some (results, l) ∧
      call l = some (result, m) ∧
      source.toList = passed ++ rest ∧ byteLength passed = m.scanner.mark ∧
      ClosesFirst source m.scanner.mark rest result := by
  obtain ⟨results, l, m, run, next, mark⟩ := exists_call dialect source number
  have stands := ((Tokenizer.standsIn_ofSource dialect source).after number).skipSpace
  have closes := closesFirst_record stands
  obtain ⟨passed, behind⟩ := stands
  refine ⟨results, l, _, m, passed, _, run, next, behind.whole, ?_, ?_⟩
  · rw [mark, behind.here, Position.offset_after, Nat.zero_add]
  · rw [mark]
    exact closes

/-- Shorter and longer brackets are passed over, also one that shares its first sign with what
closes. -/
theorem overlapping_brackets_are_passed :
    ∃ results l t m before after,
      calls 2 (ofSource {} "x = [==[]=]===]]==]y") = some (results, l) ∧
      call l = some (.ok t, m) ∧
      IsFirstOccurrence (closing 2) "]=]===]]==]y".toList before after ∧
      t.text = String.ofList (opening 2 ++ (before ++ closing 2)) ∧
      t.text = "[==[]=]===]]==]" := by
  let source := "x = [==[]=]===]]==]y"
  let inside := "]=]===]]==]y".toList
  let t := (Tokenizer.ofSource {} source).after 2
  obtain ⟨results, l, result, m, passed, rest, run, next, whole, mark, closes⟩ :=
    calls_close_first {} source 2
  obtain ⟨results', l', m', run', next', mark'⟩ := exists_call {} source 2
  obtain ⟨rfl, rfl⟩ := Prod.mk.inj (Option.some.inj (run.symm.trans run'))
  obtain ⟨rfl, rfl⟩ := Prod.mk.inj (Option.some.inj (next.symm.trans next'))
  have start : m.scanner.mark = 4 := mark'.trans (by decide +kernel)
  have front : passed = "x = ".toList := by
    apply @eq_of_byteLength _ _ source.toList ⟨rest, whole.symm⟩
      ⟨"[==[]=]===]]==]y".toList, by decide⟩
    rw [mark, start]
    rfl
  have begins : rest = LongForm.string.lead ++ (opening 2 ++ inside) := by
    have all : source.toList =
        "x = ".toList ++ (LongForm.string.lead ++ (opening 2 ++ inside)) := by decide
    rw [front, all] at whole
    exact (List.append_cancel_left whole).symm
  have occurs : closing 2 <:+: inside := ⟨"]=]===]".toList, ['y'], by decide⟩
  obtain ⟨before, after, first, token, same, -, text, -⟩ :=
    closes.closed .string 2 inside begins occurs
  have known : (Outcome.record t.next.1).toOption.map TokenRecord.text =
      some "[==[]=]===]]==]" := by decide +kernel
  rw [show Outcome.record t.next.1 = .ok token from same] at known next
  exact ⟨_, l, token, m, before, after, run, next, first, text, Option.some.inj known⟩

end LuaFrontend.Lexer
