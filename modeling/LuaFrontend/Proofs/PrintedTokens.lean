import LuaFrontend.Proofs.LexemeJoin
import LuaFrontend.Proofs.LayoutInvariance
import LuaFrontend.Proofs.PrintedForm

set_option autoImplicit false

namespace LuaFrontend

/-- The word is read whole, and as what it is. -/
structure Word.IsWhole (dialect : Dialect) (w : Word) : Prop where
  begins : ∃ c s, w.2.toList = c :: s ∧ isSpace c = false
  read : Lexeme.read dialect w.2.toList = ⟨w.2.toList, [], .ok w.1⟩

/-- The gap ends the word: it takes a line break to end a comment. -/
def Word.EndsAt (gap : Char) (w : Word) : Prop := isLineBreak gap ∨ w.1 ≠ .comment

variable {gap : Char}

theorem Word.print_cons (w : Word) (words : List Word) :
    Word.print gap (w :: words) = gap :: (w.2.toList ++ Word.print gap words) :=
  List.flatMap_cons

namespace Word.IsWhole

variable {dialect : Dialect} {w : Word}

theorem read_print (space : isSpace gap) (h : w.IsWhole dialect) (ends : w.EndsAt gap)
    (words : List Word) :
    Lexeme.read dialect (w.2.toList ++ Word.print gap words) =
      ⟨w.2.toList, Word.print gap words, .ok w.1⟩ := by
  obtain ⟨⟨c, s, same, -⟩, read⟩ := h
  cases words with
  | nil => rw [Word.print, List.flatMap_nil, List.append_nil, read]
  | cons v words =>
    have some : w.2.toList ≠ [] := same ▸ List.cons_ne_nil c s
    have ok : (Lexeme.read dialect w.2.toList).outcome = .ok w.1 := by rw [read]
    rw [Word.print_cons, Lexeme.read_append_gap space dialect some ok ends, read]
    rfl

theorem dropWhile_print (space : isSpace gap) (h : w.IsWhole dialect) (words : List Word) :
    (Word.print gap (w :: words)).dropWhile isSpace = w.2.toList ++ Word.print gap words := by
  obtain ⟨⟨c, s, same, noSpace⟩, -⟩ := h
  rw [Word.print_cons, List.dropWhile_cons_of_pos space, same, List.cons_append,
    List.dropWhile_cons_of_neg (by simp [noSpace])]

end Word.IsWhole

namespace Tokenizer

variable {t : Tokenizer} {w : Word}

/-- Behind white space, a word that is read whole is the next token. -/
theorem next_of_isWhole (space : isSpace gap) (whole : w.IsWhole t.dialect) (ends : w.EndsAt gap)
    {words : List Word} (rest : t.rest = Word.print gap (w :: words)) :
    (∃ start, t.next.1 = .ok ⟨w.1, w.2, start⟩) ∧ t.next.2.rest = Word.print gap words := by
  have skipped : t.skipSpace.rest = w.2.toList ++ Word.print gap words := by
    rw [rest_skipSpace, rest, whole.dropWhile_print space]
  have reads : Lexeme.read t.skipSpace.dialect t.skipSpace.rest =
      ⟨w.2.toList, Word.print gap words, .ok w.1⟩ := by
    rw [skipped]
    exact whole.read_print space ends words
  rw [next, takeLexeme, reads]
  exact ⟨⟨t.skipSpace.here, by simp only [String.ofList_toList]⟩, rfl⟩

theorem isDone_print (space : isSpace gap) {words : List Word}
    (whole : ∀ w ∈ words, w.IsWhole t.dialect) (rest : t.rest = Word.print gap words) :
    t.isDone = words.isEmpty := by
  cases words with
  | nil => rw [isDone, rest_skipSpace, rest]; rfl
  | cons w words =>
    have first := whole w List.mem_cons_self
    obtain ⟨c, s, same, -⟩ := first.begins
    rw [isDone, rest_skipSpace, rest, first.dropWhile_print space, same]
    rfl

/-- The tokens of printed words are spelled like the words. -/
theorem items_print (space : isSpace gap) {words : List Word} {steps : Nat}
    (whole : ∀ w ∈ words, w.IsWhole t.dialect) (ends : ∀ w ∈ words, w.EndsAt gap)
    (rest : t.rest = Word.print gap words) (enough : words.length ≤ steps) :
    ∃ tokens : List Token, (Lexed.ofTokenizer steps t).items = tokens.map .ok ∧
      tokens.map (·.spelling) = words := by
  induction words generalizing t steps with
  | nil =>
    refine ⟨[], ?_, rfl⟩
    have done : t.isDone := isDone_print space whole rest
    cases steps with
    | zero => rfl
    | succ steps => rw [Lexed.ofTokenizer, if_pos done]; rfl
  | cons w words ih =>
    have more : t.isDone = false := isDone_print space whole rest
    cases steps with
    | zero => simp at enough
    | succ steps =>
      obtain ⟨⟨start, token⟩, behind⟩ := next_of_isWhole space
        (whole w List.mem_cons_self) (ends w List.mem_cons_self) rest
      have others : ∀ v ∈ words, v.IsWhole t.next.2.dialect := fun v member => by
        rw [dialect_next]
        exact whole v (List.mem_cons_of_mem w member)
      have stops := fun v member => ends v (List.mem_cons_of_mem w member)
      obtain ⟨tokens, items, spelled⟩ := ih others stops behind (Nat.le_of_succ_le_succ enough)
      refine ⟨⟨w.1, w.2, start⟩ :: tokens, ?_, congrArg (w :: ·) spelled⟩
      rw [Lexed.ofTokenizer, more, if_neg Bool.false_ne_true, List.map_cons, ← items, ← token]

end Tokenizer

theorem Word.length_le_print (gap : Char) (words : List Word) :
    words.length ≤ (Word.print gap words).length := by
  induction words with
  | nil => exact Nat.le_refl _
  | cons w words ih =>
    rw [Word.print_cons, List.length_cons, List.length_cons, List.length_append]
    omega

/-- Before white space there is no mark and no line for the shell. -/
theorem preamble_of_isSpace {c : Char} (space : isSpace c) (s : List Char) :
    preamble (c :: s) = [] := by
  have noMark : c ≠ '\uFEFF' := ne_of_isSpace space rfl
  have noShell : '#' ≠ c := (ne_of_isSpace space rfl).symm
  simp [preamble, List.isPrefixOf, noMark, noShell]

/-- A text of words with white space between them consists of these words. -/
theorem tokenize_print {dialect : Dialect} (space : isSpace gap) {words : List Word}
    (whole : ∀ w ∈ words, w.IsWhole dialect) (ends : ∀ w ∈ words, w.EndsAt gap) :
    ∃ tokens, tokenize dialect (String.ofList (Word.print gap words)) = .ok tokens ∧
      tokens.map (·.spelling) = words ++ [(.endOfInput, "")] := by
  have rest : (Tokenizer.ofSource dialect (String.ofList (Word.print gap words))).rest =
      Word.print gap words := by
    have none : preamble (Word.print gap words) = [] := by
      cases words with
      | nil => rfl
      | cons w words => exact preamble_of_isSpace space _
    rw [Tokenizer.ofSource, String.toList_ofList, none]
    rfl
  have enough := Word.length_le_print gap words
  rw [← rest] at enough
  obtain ⟨tokens, items, spelled⟩ := Tokenizer.items_print space whole ends rest enough
  refine ⟨_, tokenize_ok.mpr ⟨tokens, items, rfl⟩, ?_⟩
  rw [List.map_append, spelled, List.map_singleton, Lexed.ofSource, Tokenizer.final_ofTokenizer]
  rfl

/-- A word that is read behind a line feed, where nothing else stands, is read whole. -/
theorem Tokenizer.isWhole_of_next {t : Tokenizer} {w : Word} {start : Position}
    (rest : t.rest = '\n' :: w.2.toList) (more : t.isDone = false)
    (token : t.next.1 = .ok ⟨w.1, w.2, start⟩) : w.IsWhole t.dialect := by
  have skipped : t.skipSpace.rest = w.2.toList.dropWhile isSpace := by
    rw [rest_skipSpace, rest, List.dropWhile_cons_of_pos rfl]
  have read := read_of_next token
  have text := Lexeme.text_read t.dialect t.skipSpace.rest
  rw [read, skipped] at text
  -- what is read cannot be longer than what is left of it behind its white space
  have split : w.2.toList ++ t.next.2.rest = w.2.toList.dropWhile isSpace := text
  have lengths := congrArg List.length split
  have shorter := List.length_dropWhile_le isSpace w.2.toList
  rw [List.length_append] at lengths
  have noRest : t.next.2.rest = [] := List.eq_nil_of_length_eq_zero (by omega)
  rw [noRest, List.append_nil] at split
  rw [noRest, skipped, ← split] at read
  refine ⟨?_, read⟩
  cases same : w.2.toList with
  | nil =>
    rw [isDone, skipped, ← split, same] at more
    cases more
  | cons c s =>
    refine ⟨c, s, rfl, ?_⟩
    by_contra space
    rw [same, List.dropWhile_cons_of_pos (Bool.not_eq_false _ ▸ space)] at split
    have longer := congrArg List.length split
    have shorter := List.length_dropWhile_le isSpace s
    rw [List.length_cons] at longer
    omega

theorem isWhole_of_isLexeme {dialect : Dialect} {w : Word} (h : IsLexeme dialect w) :
    w.IsWhole dialect := by
  obtain ⟨start, stop, tokenized⟩ := h
  obtain ⟨before, items, same⟩ := tokenize_ok.mp tokenized
  have first : [⟨w.1, w.2, start⟩] = before := by
    generalize (Lexed.ofSource dialect ("\n" ++ w.2)).final = final at same
    have split : [⟨w.1, w.2, start⟩] ++ [⟨.endOfInput, "", stop⟩] = before ++ [final] := same
    exact (List.append_inj' split rfl).1
  have rest : (Tokenizer.ofSource dialect ("\n" ++ w.2)).rest = '\n' :: w.2.toList := by
    rw [Tokenizer.ofSource, String.toList_append]
    rfl
  rw [← first, Lexed.ofSource, rest, List.length_cons, Lexed.ofTokenizer] at items
  split at items
  · cases items
  · next more =>
    have token := (List.cons.inj items).1
    exact Tokenizer.isWhole_of_next rest (Bool.eq_false_iff.mpr more) token

end LuaFrontend
