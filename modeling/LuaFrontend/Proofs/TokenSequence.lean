import LuaFrontend.Proofs.CursorView

set_option autoImplicit false

namespace LuaFrontend

/-- The span holds something, and ends before the other one begins. -/
def Span.Precedes (a b : Span) : Prop := a.start < a.stop ∧ a.stop ≤ b.start

/-- There is one vararg sign only. -/
theorem Lexeme.taken_read_of_vararg (dialect : Dialect) {s : List Char}
    (h : (read dialect s).outcome = .ok .vararg) : (read dialect s).taken = ['.', '.', '.'] := by
  unfold read at h ⊢
  split at h
  · simp only [readName, wordKind, Except.ok.injEq] at h
    grind
  · cases outcome_ofPart_ok h
  · cases outcome_ofPart_ok h
  · cases outcome_ofPart_ok h
  · simp only [readLongString] at h
    split at h <;> cases outcome_ofPart_ok h
  · cases s with
    | nil => simp [readSymbol] at h
    | cons c s =>
      simp only [readSymbol] at h ⊢
      split at h
      · simpa using h
      · cases h

namespace Tokenizer

theorem text_of_vararg {t : Tokenizer} {token : Token} (result : t.next.1 = .ok token)
    (vararg : token.kind = .vararg) : token.text = "..." := by
  simp only [next, takeLexeme] at result
  split at result
  · next k read =>
    obtain rfl := Except.ok.inj result
    rw [show k = .vararg from vararg] at read
    rw [Lexeme.taken_read_of_vararg _ read]
  · cases result

theorem stop_span_next (t : Tokenizer) : (Outcome.span t.next.1).stop = t.next.2.here.offset := by
  rw [here_next, Position.offset_after, byteLength_toList]
  rfl

theorem length_span_next {t : Tokenizer} (h : t.isDone = false) :
    (Outcome.span t.next.1).start < (Outcome.span t.next.1).stop := by
  have some := text_next_ne_nil h
  have filled : 0 < (Outcome.text t.next.1).utf8ByteSize := by
    rw [Nat.pos_iff_ne_zero]
    intro empty
    rw [String.utf8ByteSize_eq_zero_iff.mp empty] at some
    exact some rfl
  exact Nat.lt_add_of_pos_right filled

theorem isDone_of_length {t : Tokenizer} (h : t.rest.length ≤ 0) : t.isDone := by
  have empty : t.rest = [] := List.eq_nil_of_length_eq_zero (Nat.le_zero.mp h)
  simp [isDone_iff, empty]

theorem here_le_endToken (t : Tokenizer) : t.here.offset ≤ t.endToken.start.offset := by
  rw [endToken, here_skipSpace, Position.offset_after]
  exact Nat.le_add_right _ _

/-- What is read later begins behind what was read before. -/
theorem precedes_pieces (calls : Nat) (t : Tokenizer) :
    (∀ p ∈ pieces calls t, t.here.offset ≤ p.outcome.span.start) ∧
      (pieces calls t).Pairwise fun p q => p.outcome.span.Precedes q.outcome.span := by
  induction calls generalizing t with
  | zero => simp [pieces]
  | succ calls ih =>
    rw [pieces]
    split
    · simp
    · next more =>
      obtain ⟨later, ordered⟩ := ih t.next.2
      have start : (Outcome.span t.next.1).start = t.here.offset + byteLength t.piece.gap :=
        offset_start_next t
      have stop := stop_span_next t
      have filled := length_span_next (Bool.eq_false_iff.mpr more)
      refine ⟨?_, List.pairwise_cons.mpr ⟨fun q member => ⟨filled, ?_⟩, ordered⟩⟩
      · intro p member
        rcases List.mem_cons.mp member with rfl | member
        · change _ ≤ (Outcome.span t.next.1).start
          omega
        · have behind := later p member
          omega
      · change (Outcome.span t.next.1).stop ≤ _
        rw [stop]
        exact later q member

end Tokenizer

namespace Lexed

variable (dialect : Dialect) (source : String)

theorem isEnd_final : (ofSource dialect source).final.isEnd := by
  rw [ofSource, Tokenizer.final_ofTokenizer]
  rfl

/-- Each item is what some call of the tokenizer gave before the end. -/
theorem mem_items {o : Outcome} (h : o ∈ (ofSource dialect source).items) :
    ∃ t : Tokenizer, t.isDone = false ∧ t.next.1 = o := by
  rw [ofSource, Tokenizer.items_ofTokenizer] at h
  obtain ⟨p, member, rfl⟩ := List.mem_map.mp h
  obtain ⟨t, rfl, more⟩ := Tokenizer.exists_piece_of_mem member
  exact ⟨t, more, rfl⟩

theorem isEnd_of_mem_items {t : Token} (h : .ok t ∈ (ofSource dialect source).items) :
    t.isEnd = false := by
  obtain ⟨tokenizer, more, result⟩ := mem_items dialect source h
  exact Tokenizer.isEnd_of_next more result

theorem isInput_append {items : List Outcome} {final : Token} (last : final.isEnd)
    (h : ∀ t, .ok t ∈ items → t.isEnd = false ∧ (t.kind = .vararg → t.text = "...")) :
    Outcome.IsInput (items ++ [.ok final]) := by
  induction items with
  | nil => exact .final last
  | cons o items ih =>
    have others := ih fun t member => h t (List.mem_cons_of_mem o member)
    cases o with
    | ok t =>
      obtain ⟨more, spelled⟩ := h t List.mem_cons_self
      exact .token more spelled others
    | error e => exact .error others

theorem isInput_ofSource :
    Outcome.IsInput ((ofSource dialect source).items.filter Outcome.isSignificant ++
      [.ok (ofSource dialect source).final]) := by
  refine isInput_append (isEnd_final dialect source) fun t member => ?_
  have item := (List.mem_filter.mp member).1
  obtain ⟨tokenizer, -, result⟩ := mem_items dialect source item
  exact ⟨isEnd_of_mem_items dialect source item, Tokenizer.text_of_vararg result⟩

theorem ordered_ofSource :
    ((ofSource dialect source).items.map Outcome.span).Pairwise Span.Precedes := by
  rw [ofSource, Tokenizer.items_ofTokenizer, List.map_map, List.pairwise_map]
  exact (Tokenizer.precedes_pieces _ _).2

/-- A bound that is long enough does not matter. -/
theorem ofTokenizer_eq {calls others : Nat} {t : Tokenizer} (long : t.rest.length ≤ calls)
    (alsoLong : t.rest.length ≤ others) : ofTokenizer calls t = ofTokenizer others t := by
  induction calls generalizing others t with
  | zero =>
    cases others with
    | zero => rfl
    | succ others => rw [ofTokenizer, ofTokenizer, if_pos (Tokenizer.isDone_of_length long)]
  | succ calls ih =>
    cases others with
    | zero => rw [ofTokenizer, ofTokenizer, if_pos (Tokenizer.isDone_of_length alsoLong)]
    | succ others =>
      rw [ofTokenizer, ofTokenizer]
      by_cases done : t.isDone
      · rw [if_pos done, if_pos done]
      · have shorter := Tokenizer.length_rest_next (Bool.eq_false_iff.mpr done)
        have rest : ofTokenizer calls t.next.2 = ofTokenizer others t.next.2 :=
          ih (by omega) (by omega)
        rw [if_neg done, if_neg done, rest]

/-- The end token begins behind everything that is read. -/
theorem stop_le_final (calls : Nat) (t : Tokenizer) :
    t.here.offset ≤ (ofTokenizer calls t).final.start.offset ∧
      ∀ o ∈ (ofTokenizer calls t).items,
        (Outcome.span o).stop ≤ (ofTokenizer calls t).final.start.offset := by
  induction calls generalizing t with
  | zero => exact ⟨t.here_le_endToken, fun _ none => absurd none List.not_mem_nil⟩
  | succ calls ih =>
    rw [ofTokenizer]
    split
    · exact ⟨t.here_le_endToken, fun _ none => absurd none List.not_mem_nil⟩
    · obtain ⟨later, others⟩ := ih t.next.2
      refine ⟨?_, fun o member => ?_⟩
      · have moved := Tokenizer.offset_next t
        dsimp only
        omega
      · rcases List.mem_cons.mp member with rfl | member
        · exact (Tokenizer.stop_span_next t).trans_le later
        · exact others o member

/-- Nothing in a text begins where something else does. -/
theorem starts_increase : List.Pairwise (fun o p : Outcome => o.span.start < p.span.start)
    ((ofSource dialect source).items ++ [.ok (ofSource dialect source).final]) := by
  have ordered := ordered_ofSource dialect source
  rw [List.pairwise_map] at ordered
  refine List.pairwise_append.mpr ⟨ordered.imp fun precedes => ?_, List.pairwise_singleton _ _,
    fun o member p last => ?_⟩
  · exact Nat.lt_of_lt_of_le precedes.1 precedes.2
  · obtain rfl := List.mem_singleton.mp last
    obtain ⟨tokenizer, more, rfl⟩ := mem_items dialect source member
    exact (Tokenizer.length_span_next more).trans_le ((stop_le_final _ _).2 _ member)

/-- What the grammar sees of a text: everything but the comments. -/
def seen (l : Lexed) : List Outcome := l.items.filter Outcome.isSignificant ++ [.ok l.final]

theorem starts_of_seen_increase :
    (ofSource dialect source).seen.Pairwise fun o p => o.span.start < p.span.start :=
  (starts_increase dialect source).sublist (List.filter_sublist.append_right _)

/-- Everything up to the end of the text. -/
def remaining (t : Tokenizer) : Lexed := ofTokenizer t.rest.length t

theorem remaining_of_isDone {t : Tokenizer} (h : t.isDone) : remaining t = ⟨[], t.endToken⟩ := by
  unfold remaining
  cases t.rest.length with
  | zero => rfl
  | succ calls => rw [ofTokenizer, if_pos h]

theorem remaining_next {t : Tokenizer} (h : t.isDone = false) :
    remaining t = ⟨t.next.1 :: (remaining t.next.2).items, (remaining t.next.2).final⟩ := by
  have shorter := Tokenizer.length_rest_next h
  have whole : remaining t = ofTokenizer (t.rest.length - 1 + 1) t :=
    ofTokenizer_eq le_rfl (by omega)
  have rest : ofTokenizer (t.rest.length - 1) t.next.2 = remaining t.next.2 :=
    ofTokenizer_eq (by omega) le_rfl
  rw [whole, ofTokenizer, h, if_neg Bool.false_ne_true, rest]

/-- What comes first is what the next call gives. -/
theorem next_of_remaining {t : Tokenizer} {o : Outcome} {others : List Outcome}
    (h : (remaining t).items = o :: others) :
    t.isDone = false ∧ t.next.1 = o ∧ (remaining t.next.2).items = others := by
  cases done : t.isDone with
  | false =>
    rw [remaining_next done] at h
    exact ⟨rfl, List.cons.inj h⟩
  | true =>
    rw [remaining_of_isDone done] at h
    cases h

/-- The end token stands at the end. -/
theorem offset_final_remaining (t : Tokenizer) :
    (remaining t).final.start.offset = t.here.offset + byteLength t.rest := by
  induction left : t.rest.length using Nat.strong_induction_on generalizing t with
  | h left ih =>
    by_cases done : t.isDone
    · rw [remaining_of_isDone done, Tokenizer.text_endToken_isDone done]
    · have more := Bool.eq_false_iff.mpr done
      have shorter := Tokenizer.length_rest_next more
      rw [remaining_next more, ih _ (by omega) t.next.2 rfl, Tokenizer.offset_next,
        t.rest_eq_piece, byteLength_append, Nat.add_assoc]

theorem collect_ok {final : Token} {items : List Outcome} {tokens : List Token} :
    collect final items = .ok tokens ↔
      ∃ before, items = before.map .ok ∧ tokens = before ++ [final] := by
  induction items generalizing tokens with
  | nil =>
    constructor
    · rintro ⟨⟩
      exact ⟨[], rfl, rfl⟩
    · rintro ⟨before, empty, rfl⟩
      rw [List.map_eq_nil_iff.mp empty.symm]
      rfl
  | cons o items ih =>
    cases o with
    | error e =>
      constructor
      · rintro ⟨⟩
      · rintro ⟨before, same, -⟩
        cases before <;> cases same
    | ok t =>
      constructor
      · intro h
        rw [collect] at h
        cases rest : collect final items with
        | error e =>
          rw [rest] at h
          cases h
        | ok others =>
          rw [rest] at h
          cases h
          obtain ⟨before, rfl, rfl⟩ := ih.mp rest
          exact ⟨t :: before, rfl, rfl⟩
      · rintro ⟨before, same, rfl⟩
        cases before with
        | nil => cases same
        | cons first before =>
          obtain ⟨first, others⟩ := List.cons.inj same
          cases first
          rw [collect, ih.mpr ⟨before, others, rfl⟩]
          rfl

end Lexed

/-- A text without errors: its tokens, and behind them the end token. -/
theorem tokenize_ok {dialect : Dialect} {source : String} {tokens : List Token} :
    tokenize dialect source = .ok tokens ↔
      ∃ before, (Lexed.ofSource dialect source).items = before.map .ok ∧
        tokens = before ++ [(Lexed.ofSource dialect source).final] :=
  Lexed.collect_ok

end LuaFrontend
