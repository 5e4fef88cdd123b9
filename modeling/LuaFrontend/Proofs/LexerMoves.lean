import LuaFrontend.Proofs.LexemeLineEnds
import LuaFrontend.Proofs.ScannerText
import LuaFrontend.Token.Lexer

set_option autoImplicit false

namespace LuaFrontend

namespace Machine

variable {σ α β : Type} {s next : σ} {x : Machine σ α} {f : α → Machine σ β}

theorem bind_ok {a : α} (h : x s = some (.ok a, next)) : (x >>= f) s = f a next := by
  change (x s).bind _ = _
  rw [h]
  rfl

theorem bind_error {e : ErrorRecord} (h : x s = some (.error e, next)) :
    (x >>= f) s = some (.error e, next) := by
  change (x s).bind _ = _
  rw [h]
  rfl

@[simp] theorem run_pure (a : α) : (pure a : Machine σ α) s = some (.ok a, s) := rfl

@[simp] theorem run_get (f : σ → Machine σ β) : (get >>= f) s = f s s := rfl

@[simp] theorem run_need (a : α) : (need (some a) >>= f) s = f a s := rfl

@[simp] theorem run_ite (condition : Prop) [Decidable condition] (x y : Machine σ α) :
    (if condition then x else y) s = if condition then x s else y s := by
  split <;> rfl

section Loops

variable {left : σ → Nat} {round : Machine σ (Option α)} {t : σ} {a : α} {e : ErrorRecord}

theorem loop_done (run : round s = some (.ok (some a), t)) :
    loop left round s = some (.ok a, t) := by
  rw [loop, run]

theorem loop_error (run : round s = some (.error e, t)) :
    loop left round s = some (.error e, t) := by
  rw [loop, run]

theorem loop_next (run : round s = some (.ok none, t)) (less : left t < left s) :
    loop left round s = loop left round t := by
  conv => lhs; rw [loop, run]
  exact if_pos less

/-- What every round that goes on keeps holds before the last one. -/
theorem exists_last_round {P : σ → Prop} (run : loop left round s = some (.ok a, t)) (start : P s)
    (keeps : ∀ s t, P s → round s = some (.ok none, t) → P t) :
    ∃ r, P r ∧ round r = some (.ok (some a), t) := by
  induction size : left s using Nat.strong_induction_on generalizing s with
  | _ n ih =>
    rw [loop] at run
    split at run
    · next next first =>
      split at run
      · next less => exact ih _ (size ▸ less) run (keeps _ _ start first) rfl
      · contradiction
    · next b next first =>
      cases run
      exact ⟨s, start, first⟩
    · cases run
    · cases run

end Loops

end Machine

namespace Lexer

open Machine

variable {α β : Type} {l m : Lexer}

section Runs

@[simp] theorem run_head (f : Scanner → Action β) : (head >>= f) l = f l.scanner l := rfl

@[simp] theorem run_scan (move : Scanner → Scanner) (x : Unit → Action β) :
    (scan move >>= x) l = x () { l with scanner := move l.scanner } := rfl

@[simp] theorem run_consumeLineEnd (f : Bool → Action β) : (consumeLineEnd >>= f) l =
    f l.scanner.consumeLineEnd.1 { l with scanner := l.scanner.consumeLineEnd.2 } := rfl

end Runs

/-- The error that is reported if reading stops here. -/
def report (l : Lexer) (fault : FaultRecord) : ErrorRecord :=
  ⟨fault, ⟨l.scanner.line, l.scanner.position - l.scanner.lineStart + 1, l.scanner.position⟩,
    l.scanner.capturedText⟩

/-- The token that ends here. -/
def token (l : Lexer) (kind : TokenKind) : TokenRecord :=
  ⟨kind, l.scanner.capturedText, l.scanner.captured, l.tokenLine, l.tokenLineStart,
    kind == .keyword⟩

theorem capturedText?_of_isInText {s : Scanner} (h : s.IsInText) :
    s.capturedText? = some s.capturedText := by
  rw [Scanner.capturedText?, Scanner.slice?, if_pos ⟨h.mark_le, h.position_le⟩]
  rfl

theorem location_of_le {line lineStart offset : Nat} (h : lineStart ≤ offset) :
    Location.of? line lineStart offset = some ⟨line, offset - lineStart + 1, offset⟩ := by
  rw [Location.of?, sub?_of_le h]
  rfl

theorem fail_eq (h : l.scanner.IsInText) (fault : FaultRecord) :
    fail (α := α) fault l = some (.error (l.report fault), l) := by
  rw [fail, run_head, location_of_le h.lineStart_le, run_need, capturedText?_of_isInText h, run_need]
  rfl

theorem makeToken_eq (h : l.scanner.IsInText) (kind : TokenKind) :
    makeToken kind l = some (.ok (l.token kind), l) := by
  rw [makeToken, run_get, capturedText?_of_isInText h, run_need]
  rfl

/-- This text is ahead. -/
structure Faces (l : Lexer) (text : List Char) : Prop where
  scanner : l.scanner.Faces text
  extended : l.scanner.extended = l.dialect.extendedIdentifiers

/-- The lexer behind this text. -/
def moved (l : Lexer) (taken : List Char) : Lexer := { l with scanner := l.scanner.passed taken }

@[simp] theorem moved_nil (l : Lexer) : l.moved [] = l := by rw [moved, Scanner.passed_nil]

@[simp] theorem dialect_moved (l : Lexer) (taken : List Char) :
    (l.moved taken).dialect = l.dialect :=
  rfl

section Moves

variable {c : Char} {a b taken rest text : List Char}

theorem moved_append (clean : CutsClean a b) : (l.moved a).moved b = l.moved (a ++ b) :=
  congrArg (fun scanner => { l with scanner }) (Scanner.passed_append clean)

theorem moved_inline (inline : ∀ c ∈ a, isLineBreak c = false) (b : List Char) :
    (l.moved a).moved b = l.moved (a ++ b) :=
  moved_append (.of_forall inline b)

namespace Faces

theorem isInText (h : l.Faces text) : l.scanner.IsInText := h.scanner.inside

theorem moved (h : l.Faces (a ++ rest)) : (l.moved a).Faces rest :=
  ⟨h.scanner.passed, h.extended⟩

theorem fail (h : l.Faces text) (fault : FaultRecord) :
    Lexer.fail (α := α) fault l = some (.error (l.report fault), l) :=
  fail_eq h.isInText fault

theorem makeToken (h : l.Faces text) (kind : TokenKind) :
    Lexer.makeToken kind l = some (.ok (l.token kind), l) :=
  makeToken_eq h.isInText kind

theorem advance (h : l.Faces (c :: rest)) (one : c.utf8Size = 1) (inline : isLineBreak c = false) :
    { l with scanner := l.scanner.advance } = l.moved [c] :=
  congrArg (fun scanner => { l with scanner }) (h.scanner.advance one inline)

theorem advanceBy (h : l.Faces (a ++ rest)) (inline : ∀ c ∈ a, isLineBreak c = false) :
    { l with scanner := l.scanner.advanceBy (byteLength a) } = l.moved a :=
  congrArg (fun scanner => { l with scanner }) (h.scanner.advanceBy inline)

/-- As many bytes as characters. -/
theorem advanceBy_length (h : l.Faces (a ++ rest)) (one : ∀ c ∈ a, c.utf8Size = 1)
    (inline : ∀ c ∈ a, isLineBreak c = false) :
    { l with scanner := l.scanner.advanceBy a.length } = l.moved a := by
  have length : byteLength a = a.length := by
    clear h inline
    induction a with
    | nil => rfl
    | cons c a ih =>
      rw [byteLength_cons, one c List.mem_cons_self, ih fun d inside => one d (.tail c inside),
        List.length_cons, Nat.add_comm]
  rw [← length]
  exact h.advanceBy inline

theorem scanWhile {test : Char → Bool} (h : l.Faces text) (bytewise : IsBytewise test)
    (inline : Lexeme.IsInline test) :
    { l with scanner := l.scanner.scanWhile (·.isAt test 0) } = l.moved (text.takeWhile test) :=
  congrArg (fun scanner => { l with scanner }) <| h.scanner.scanWhile bytewise
    fun _ inside => inline.eq_false (List.mem_takeWhile_imp inside)

theorem remaining (h : l.Faces text) : l.remaining = byteLength text := by
  rw [Lexer.remaining, Scanner.remaining, h.scanner.size_eq, Nat.add_sub_cancel_left]

/-- Something is passed. -/
theorem remaining_lt (h : l.Faces (a ++ rest)) (some : a ≠ []) :
    (l.moved a).remaining < l.remaining := by
  have more := byteLength_eq_zero.not.mpr some
  rw [h.remaining, h.moved.remaining, byteLength_append]
  omega

end Faces

/-- So many bytes further on the same line, whatever characters they are of. -/
def forward (l : Lexer) (count : Nat) : Lexer :=
  { l with scanner := { l.scanner with position := l.scanner.position + count } }

theorem remaining_forward_lt {b : UInt8} {others : List UInt8}
    (ahead : l.scanner.source.toList.drop l.scanner.position = b :: others) :
    (l.forward 1).remaining < l.remaining := by
  have inside := Scanner.lt_size_of_drop ahead
  change l.scanner.source.size - (l.scanner.position + 1) <
    l.scanner.source.size - l.scanner.position
  omega

end Moves

section Bytes

variable {round : Action (Option α)} {c : Char} {rest : List Char} {bytes others : List UInt8}

/-- A round passes a byte outside ASCII and goes on. -/
def PassesBytes (round : Action (Option α)) : Prop :=
  ∀ (l : Lexer) (b : UInt8) (others : List UInt8),
    l.scanner.source.toList.drop l.scanner.position = b :: others → 128 ≤ b.toNat →
      round l = some (.ok none, l.forward 1)

/-- Such bytes are passed one by one. -/
theorem loop_bytes (passes : PassesBytes round)
    (ahead : l.scanner.source.toList.drop l.scanner.position = bytes ++ others)
    (large : ∀ b ∈ bytes, 128 ≤ b.toNat) :
    loop remaining round l = loop remaining round (l.forward bytes.length) := by
  induction bytes generalizing l with
  | nil => rfl
  | cons b bytes ih =>
    have run := passes l b _ ahead (large b List.mem_cons_self)
    have behind : (l.forward 1).scanner.source.toList.drop (l.forward 1).scanner.position =
        bytes ++ others := by
      change l.scanner.source.toList.drop (l.scanner.position + 1) = _
      rw [← List.drop_drop, ahead]
      rfl
    rw [loop_next run (remaining_forward_lt ahead),
      ih behind fun a inside => large a (.tail b inside), List.length_cons]
    simp only [forward, Nat.add_assoc, Nat.add_comm 1]

/-- A character is passed whole if its only byte is, where it has but one. -/
theorem loop_char (passes : PassesBytes round) (h : l.Faces (c :: rest))
    (inline : isLineBreak c = false)
    (one : c.utf8Size = 1 → round l = some (.ok none, l.moved [c])) :
    loop remaining round l = loop remaining round (l.moved [c]) := by
  by_cases single : c.utf8Size = 1
  · exact loop_next (one single) (h.remaining_lt (a := [c]) (List.cons_ne_nil _ _))
  · have ahead := h.scanner.bytes
    rw [Scanner.IsBefore, List.flatMap_cons] at ahead
    rw [loop_bytes passes ahead fun b => le_of_mem_utf8EncodeChar single, forward,
      String.length_utf8EncodeChar, moved, Scanner.passed_inline (by simpa using inline),
      byteLength_cons, byteLength_nil, Nat.add_zero]

end Bytes

/-- What is behind something is shorter. -/
theorem length_lt_of_split {text taken rest : List Char} (split : text = taken ++ rest)
    (some : taken ≠ []) : rest.length < text.length := by
  rw [split, List.length_append]
  exact Nat.lt_add_of_pos_left (List.length_pos_iff.mpr some)

section Gaps

variable {c : Char} {rest text : List Char}

theorem spaceRound_eq (l : Lexer) : spaceRound l =
    if l.scanner.holds 0 .blank then some (.ok none, { l with scanner := l.scanner.advance })
    else if l.scanner.consumeLineEnd.1 then
      some (.ok none, { l with scanner := l.scanner.consumeLineEnd.2 })
    else some (.ok (some ()), { l with scanner := l.scanner.consumeLineEnd.2 }) := by
  rw [spaceRound]
  simp only [run_head, run_ite, run_scan, run_consumeLineEnd, run_pure]

theorem isLineBreak_of_isBlank (h : isBlank c) : isLineBreak c = false := by
  simp only [isBlank, Bool.or_eq_true, beq_iff_eq] at h
  rcases h with ((rfl | rfl) | rfl) | rfl <;> rfl

theorem isBlank_of_isLineBreak (h : isLineBreak c) : isBlank c = false := by
  cases blank : isBlank c with
  | false => rfl
  | true => rw [isLineBreak_of_isBlank blank] at h; contradiction

theorem skipSpace_blank (h : l.Faces (c :: rest)) (blank : isBlank c) :
    skipSpace l = skipSpace (l.moved [c]) := by
  have here : l.scanner.holds 0 .blank := (h.scanner.isAt_zero isBytewise_isBlank).trans blank
  have run : spaceRound l = some (.ok none, l.moved [c]) := by
    rw [spaceRound_eq, if_pos here,
      h.advance (utf8Size_of_isBlank blank) (isLineBreak_of_isBlank blank)]
  exact loop_next run (h.remaining_lt (a := [c]) (List.cons_ne_nil _ _))

theorem skipSpace_lineEnd (h : l.Faces (c :: text)) (breaks : isLineBreak c) :
    ∃ taken rest, c :: text = taken ++ rest ∧ Scanner.IsLineEndBefore rest taken ∧
      skipSpace l = skipSpace (l.moved taken) := by
  obtain ⟨taken, rest, split, ends, moved⟩ := h.scanner.consumeLineEnd breaks
  have here : l.scanner.holds 0 .blank = false :=
    (h.scanner.isAt_zero isBytewise_isBlank).trans (isBlank_of_isLineBreak breaks)
  have run : spaceRound l = some (.ok none, l.moved taken) := by
    rw [spaceRound_eq, if_neg (Bool.eq_false_iff.mp here), moved, if_pos rfl]
    rfl
  rw [split] at h
  exact ⟨taken, rest, split, ends, loop_next run (h.remaining_lt ends.ne_nil)⟩

theorem skipSpace_stop (h : l.Faces text) (stops : text.head?.any isSpace = false) :
    skipSpace l = some (.ok (), l) := by
  have noBlank : text.head?.any isBlank = false := by
    cases text with
    | nil => rfl
    | cons c text => exact (Bool.or_eq_false_iff.mp stops).1
  have noBreak : text.head?.any isLineBreak = false := by
    cases text with
    | nil => rfl
    | cons c text => exact (Bool.or_eq_false_iff.mp stops).2
  have here : l.scanner.holds 0 .blank = false :=
    (h.scanner.isAt_zero isBytewise_isBlank).trans noBlank
  apply loop_done
  rw [spaceRound_eq, if_neg (Bool.eq_false_iff.mp here), h.scanner.consumeLineEnd_none noBreak,
    if_neg Bool.false_ne_true]

/-- White space is passed whole. The induction is on how much text is left, since a line end may be
a pair. -/
theorem skipSpace_eq (h : l.Faces text) :
    skipSpace l = some (.ok (), l.moved (text.takeWhile isSpace)) := by
  induction size : text.length using Nat.strong_induction_on generalizing text l with
  | _ n ih =>
    subst size
    cases text with
    | nil =>
      rw [skipSpace_stop h rfl, List.takeWhile_nil, moved_nil]
    | cons c text =>
      by_cases blank : isBlank c
      · have space : isSpace c := by rw [isSpace, blank, Bool.true_or]
        have later := ih _ (Nat.lt_succ_self _) (h.moved (a := [c])) rfl
        rw [skipSpace_blank h blank, later, List.takeWhile_cons_of_pos space,
          moved_inline (by simpa using isLineBreak_of_isBlank blank), List.singleton_append]
      by_cases breaks : isLineBreak c
      · obtain ⟨taken, rest, split, ends, run⟩ := skipSpace_lineEnd h breaks
        have all : ∀ d ∈ taken, isSpace d := fun d inside => by
          rw [isSpace, ends.breaks d inside, Bool.or_true]
        have less := length_lt_of_split split ends.ne_nil
        rw [split] at h ⊢
        have later := ih _ (split ▸ less) h.moved rfl
        have clean : CutsClean taken (rest.takeWhile isSpace) := by
          apply CutsClean.of_append_right (c := rest.dropWhile isSpace)
          rw [List.takeWhile_append_dropWhile]
          exact ends.clean
        rw [run, later, moved_append clean, List.takeWhile_append_of_pos all]
      · have stops : isSpace c = false := by
          rw [isSpace, Bool.eq_false_iff.mpr blank, Bool.eq_false_iff.mpr breaks, Bool.or_false]
        rw [skipSpace_stop h stops, List.takeWhile_cons_of_neg (Bool.eq_false_iff.mp stops),
          moved_nil]

end Gaps

end Lexer
end LuaFrontend
