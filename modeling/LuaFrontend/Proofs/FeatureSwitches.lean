import LuaFrontend.Proofs.SameInput
import LuaFrontend.Proofs.SingleSigns
import Mathlib.Data.List.Chain

set_option autoImplicit false

namespace LuaFrontend

namespace Tokenizer

variable {t : Tokenizer} {large : Dialect}

/-- The tokenizer in another dialect, at the same place. -/
def inDialect (t : Tokenizer) (dialect : Dialect) : Tokenizer := { t with dialect }

theorem endToken_inDialect (t : Tokenizer) (dialect : Dialect) :
    (t.inDialect dialect).endToken = t.endToken := rfl

/-- What follows a token: the end of the text, or another token that stands apart. -/
def GoesOnApart (t : Tokenizer) (token : Token) : Prop :=
  t.isDone ∨ ∃ u, t.next.1 = .ok u ∧ StandApart token u

theorem rest_eq_skipSpace {c : Char} {s : List Char} (rest : t.rest = c :: s)
    (more : isSpace c = false) : t.skipSpace.rest = c :: s := by
  rw [rest_skipSpace, rest, List.dropWhile_cons_of_neg (by simp [more])]

/-- The next token begins with the next character, unless that is white space. -/
theorem exists_text_cons {c : Char} {s : List Char} (rest : t.rest = c :: s)
    (more : isSpace c = false) {u : Token} (result : t.next.1 = .ok u) :
    ∃ taken, u.text.toList = c :: taken := by
  have read := read_of_next result
  have lexeme := Lexeme.text_read t.dialect t.skipSpace.rest
  have some := Lexeme.taken_read_ne_nil t.dialect (s := t.skipSpace.rest)
  rw [read] at lexeme some
  simp only [Lexeme.Reading.text, rest_eq_skipSpace rest more] at lexeme some
  obtain ⟨d, taken, text⟩ := List.exists_cons_of_ne_nil (some (List.cons_ne_nil c s))
  rw [text, List.cons_append] at lexeme
  obtain ⟨rfl, -⟩ := List.cons.inj lexeme
  exact ⟨taken, text⟩

theorem isSpace_of_isDone {c : Char} (h : t.isDone) (next : c ∈ t.rest.head?) : isSpace c := by
  apply t.isDone_iff.mp h
  exact List.mem_of_head? next

theorem val_lt_of_isSpace {c : Char} (h : isSpace c) : c.val < 0x80 ∧ c ∉ doubledSigns := by
  have member := mem_of_isSpace h
  simp only [List.mem_cons, List.not_mem_nil, or_false] at member
  rcases member with rfl | rfl | rfl | rfl | rfl | rfl <;> decide

/-- What goes on apart begins with no letter that is new in the larger dialect. -/
theorem GoesOnApart.sameLetter {token : Token} (h : t.GoesOnApart token)
    (within : t.dialect.IsWithin large) {c : Char} (next : c ∈ t.rest.head?) :
    Lexeme.SameLetter t.dialect large c := by
  by_cases space : isSpace c
  · exact .inr (val_lt_of_isSpace space).1
  · have more : isSpace c = false := Bool.eq_false_iff.mpr space
    rcases h with done | ⟨u, result, -⟩
    · exact absurd (isSpace_of_isDone done next) space
    · obtain ⟨s, rest⟩ := List.head?_eq_some_iff.mp next
      have read := read_of_next result
      rw [rest_eq_skipSpace rest more] at read
      have ok : (Lexeme.read t.dialect (c :: s)).outcome = .ok u.kind := by rw [read]
      exact Lexeme.sameLetter_of_read within ok

/-- What goes on apart from a sign does not double it. -/
theorem GoesOnApart.single {token : Token} (h : t.GoesOnApart token) {c : Char}
    (sign : c ∈ doubledSigns) (kind : token.kind = .symbol) (text : token.text.toList = [c]) :
    c ∉ t.rest.head? := by
  intro next
  have noSpace : isSpace c = false := by
    rw [Bool.eq_false_iff]
    exact fun space => (val_lt_of_isSpace space).2 sign
  rcases h with done | ⟨u, result, apart⟩
  · rw [isSpace_of_isDone done next] at noSpace
    contradiction
  · obtain ⟨s, rest⟩ := List.head?_eq_some_iff.mp next
    obtain ⟨taken, begins⟩ := exists_text_cons rest noSpace result
    have read := read_of_next result
    rw [rest_eq_skipSpace rest noSpace] at read
    have ok : (Lexeme.read t.dialect (c :: s)).outcome = .ok u.kind := by rw [read]
    have symbol : u.kind = .symbol := Lexeme.kind_of_read sign ok
    have single : token.isSingle := by
      have spelled : token.text = String.singleton c := by
        rw [← String.ofList_toList (s := token.text), text]
        rfl
      simp only [Token.isSingle, kind, spelled, beq_self_eq_true, Bool.true_and,
        List.contains_iff_mem]
      exact List.mem_map_of_mem sign
    have other := apart single
    simp [Token.beginsDoubled, symbol, begins, sign] at other

theorem takeLexeme_inDialect (h : Lexeme.read large t.rest = Lexeme.read t.dialect t.rest) :
    (t.inDialect large).takeLexeme = (t.takeLexeme.1, t.takeLexeme.2.inDialect large) := by
  simp only [takeLexeme, inDialect, h]

/-- Where the text goes on apart, the token is the same in the larger dialect. -/
theorem next_inDialect (within : t.dialect.IsWithin large) {token : Token}
    (result : t.next.1 = .ok token) (apart : t.next.2.GoesOnApart token) :
    (t.inDialect large).next = (t.next.1, t.next.2.inDialect large) := by
  have read := read_of_next result
  apply takeLexeme_inDialect (t := t.skipSpace)
  have ok : (Lexeme.read t.dialect t.skipSpace.rest).outcome = .ok token.kind := by rw [read]
  apply Lexeme.read_eq within ok
  · intro c next
    rw [read] at next
    exact apart.sameLetter within next
  · intro c sign taken next
    rw [read] at taken next
    have whole := Lexeme.text_read t.dialect t.skipSpace.rest
    rw [read, Lexeme.Reading.text, taken, List.singleton_append] at whole
    rw [← whole] at ok
    exact apart.single sign (Lexeme.kind_of_read sign ok) taken next

end Tokenizer

namespace Lexed

variable {small large : Dialect}

/-- The same tokens come out of a text without faulty lexemes, if all of them stand apart. -/
theorem remaining_inDialect {t : Tokenizer} (within : t.dialect.IsWithin large)
    {tokens : List Token} (all : (remaining t).items = tokens.map .ok)
    (apart : tokens.IsChain StandApart) : remaining (t.inDialect large) = remaining t := by
  induction tokens generalizing t with
  | nil =>
    cases done : t.isDone with
    | true =>
      have alsoDone : (t.inDialect large).isDone := done
      rw [remaining_of_isDone done, remaining_of_isDone alsoDone, Tokenizer.endToken_inDialect]
    | false =>
      rw [remaining_next done] at all
      cases all
  | cons token tokens ih =>
    cases done : t.isDone with
    | true =>
      rw [remaining_of_isDone done] at all
      cases all
    | false =>
      rw [remaining_next done] at all
      obtain ⟨result, others⟩ := List.cons.inj all
      have goesOn : t.next.2.GoesOnApart token := by
        cases last : t.next.2.isDone with
        | true => exact .inl last
        | false =>
          rw [remaining_next last] at others
          cases tokens with
          | nil => cases others
          | cons u tokens =>
            cases apart with
            | cons_cons stand _ => exact .inr ⟨u, (List.cons.inj others).1, stand⟩
      have more : (t.inDialect large).isDone = false := done
      have same := ih (t := t.next.2) within others apart.tail
      rw [remaining_next done, remaining_next more, Tokenizer.next_inDialect within result goesOn,
        same]

theorem ofSource_eq_of_isWithin (within : small.IsWithin large) {source : String}
    {tokens : List Token} (all : (ofSource small source).items = tokens.map .ok)
    (apart : tokens.IsChain StandApart) : ofSource large source = ofSource small source :=
  remaining_inDialect (t := Tokenizer.ofSource small source) within all apart

end Lexed

/-- From the same tokens, the cursors in both dialects see the same. -/
theorem Cursor.opening_inDialect {small large : Dialect} {final : Token} {aside : List Token}
    {items : List Outcome} {c : Cursor} (h : opening small final aside items = .ok c) :
    opening large final aside items = .ok { c with dialect := large } := by
  induction items generalizing aside with
  | nil =>
    cases h
    rfl
  | cons o items ih =>
    cases o with
    | error e => cases h
    | ok t =>
      rw [opening] at h ⊢
      split at h
      · next comment =>
        rw [if_pos comment]
        exact ih h
      · next token =>
        rw [if_neg token]
        cases h
        rfl

/-- A program stays the same program, places and comments included, when labels, floor division,
bitwise operators or letters outside ASCII are switched on. -/
theorem parse_in_larger_dialect {small large : Options} {source : String} {chunk : Chunk}
    (within : small.toDialect.IsWithin large.toDialect) (limit : large.maxDepth = small.maxDepth)
    (h : parse small source = .ok chunk) : parse large source = .ok chunk := by
  obtain ⟨tokens, items, written, -⟩ := tokens_of_parse h
  have apart : tokens.IsChain StandApart :=
    isChain_of_areSingle (Statement.keepsSingleAll chunk.block _ written)
  have sameText := Lexed.ofSource_eq_of_isWithin within items apart
  obtain ⟨c, d, opened, run⟩ := parse_ok.mp h
  obtain ⟨upcoming, -, dialect, input, closed⟩ := ofSource_view opened
  have alsoOpened : Cursor.ofSource large.toDialect source =
      .ok { c with dialect := large.toDialect } := by
    have opening := opened
    rw [Cursor.ofSource, Cursor.ofLexed] at opening ⊢
    rw [sameText]
    exact Cursor.opening_inDialect opening
  have again : c.Repeats (fun _ => True) { c with dialect := large.toDialect } := by
    refine ⟨rfl, rfl, ?_, input, closed, closed⟩
    rw [dialect]
    by_cases same : large.labels = small.labels
    · exact .inl same
    · right
      have off : small.labels = false := by
        have le := within.labels
        grind
      refine ⟨off, fun _ => trivial, fun e f fault => ?_⟩
      obtain ⟨-, inside⟩ := fault
      rw [upcoming, items] at inside
      simp at inside
  obtain ⟨e, repeated⟩ := again.chunk_ok (.inl limit.symm) run
  exact parse_ok.mpr ⟨_, e, alsoOpened, repeated⟩

/-- A comparison in version 5.1, with everything switched on that only adds symbols. -/
theorem parse_comparison_with_shifts :
    parse { Options.lua51 with bitwiseOperators := true, labels := true } "x=a<b" =
      .ok ⟨[.assignment [.name ⟨"x", ⟨0, 1⟩⟩]
        [.binary .less (.name ⟨"a", ⟨2, 3⟩⟩) (.name ⟨"b", ⟨4, 5⟩⟩)]], []⟩ := by
  have inSmall : parse .lua51 "x=a<b" =
      .ok ⟨[.assignment [.name ⟨"x", ⟨0, 1⟩⟩]
        [.binary .less (.name ⟨"a", ⟨2, 3⟩⟩) (.name ⟨"b", ⟨4, 5⟩⟩)]], []⟩ := rfl
  have within : Options.lua51.toDialect.IsWithin
      (Options.toDialect { Options.lua51 with bitwiseOperators := true, labels := true }) :=
    ⟨fun _ => rfl, nofun, fun _ => rfl, id, rfl, rfl, rfl⟩
  exact parse_in_larger_dialect within rfl inSmall

end LuaFrontend
