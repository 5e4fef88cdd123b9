import LuaFrontend.Proofs.LexemeCut
import LuaFrontend.Proofs.PrintedTokens

set_option autoImplicit false

namespace LuaFrontend

variable {dialect : Dialect}

theorem Tokenizer.dialect_after (t : Tokenizer) (calls : Nat) :
    (t.after calls).dialect = t.dialect := by
  induction calls generalizing t with
  | zero => rfl
  | succ calls ih => rw [after, ih, dialect_next]

/-- Where the end token is not given, the end is not reached. -/
theorem Tokenizer.isDone_of_next {t : Tokenizer} {token : Token} (result : t.next.1 = .ok token)
    (other : token.isEnd = false) : t.isDone = false := by
  by_contra done
  rw [next_of_isDone (Bool.eq_true_of_not_eq_false done)] at result
  obtain rfl := Except.ok.inj result
  cases other

/-- A token that is not the end token is read whole from its own text. -/
theorem Token.isWhole_spelling {t : Tokenizer} {token : Token} (result : t.next.1 = .ok token)
    (other : token.isEnd = false) : Word.IsWhole t.dialect token.spelling := by
  have more := Tokenizer.isDone_of_next result other
  have read := Tokenizer.read_of_next result
  have again : Lexeme.read t.dialect (Lexeme.read t.dialect t.skipSpace.rest).taken = _ :=
    Lexeme.read_taken (congrArg Lexeme.Reading.outcome read)
  rw [read] at again
  refine ⟨?_, again⟩
  have nonempty : token.text.toList ≠ [] := by
    have some := Tokenizer.text_next_ne_nil more
    rwa [result] at some
  obtain ⟨c, s, same⟩ := List.exists_cons_of_ne_nil nonempty
  refine ⟨c, s, same, ?_⟩
  -- The text stands at the front of what is left behind white space.
  have split := Lexeme.text_read t.dialect t.skipSpace.rest
  rw [read, Tokenizer.rest_skipSpace] at split
  have head := List.head?_dropWhile_not isSpace t.rest
  rw [← split] at head
  simpa [Lexeme.Reading.text, same] using head

theorem Lexed.isWhole_of_mem_items {source : String} {t : Token}
    (h : .ok t ∈ (ofSource dialect source).items) : Word.IsWhole dialect t.spelling := by
  have more := isEnd_of_mem_items dialect source h
  rw [ofSource, Tokenizer.items_ofTokenizer] at h
  obtain ⟨p, member, same⟩ := List.mem_map.mp h
  obtain ⟨before, behind, split⟩ := List.append_of_mem member
  obtain ⟨rfl, -⟩ := Tokenizer.next_after_of_pieces split
  have whole := Token.isWhole_spelling same more
  rwa [Tokenizer.dialect_after] at whole

/-- A word that is read whole is a lexeme. -/
theorem Word.IsWhole.isLexeme {w : Word} (whole : w.IsWhole dialect) : IsLexeme dialect w := by
  have all : ∀ v ∈ [w], v.IsWhole dialect := by simpa using whole
  have space : isSpace '\n' := rfl
  obtain ⟨tokens, tokenized, spelled⟩ := tokenize_print space all fun _ _ => .inl rfl
  obtain ⟨token, behind, rfl, first, others⟩ := List.map_eq_cons_iff.mp spelled
  obtain ⟨stop, none, rfl, last, nothing⟩ := List.map_eq_cons_iff.mp others
  obtain rfl := List.map_eq_nil_iff.mp nothing
  have text : String.ofList (print '\n' [w]) = "\n" ++ w.2 := by
    rw [print, List.flatMap_singleton, String.ofList_cons, String.ofList_toList]
    rfl
  obtain ⟨kind, text, start⟩ := token
  obtain ⟨kind', text', start'⟩ := stop
  cases first
  cases last
  rw [text] at tokenized
  exact ⟨start, start', tokenized⟩

/-- The kind of a lexeme follows from its text. -/
theorem IsLexeme.kind_unique {kind other : TokenKind} {text : String}
    (h : IsLexeme dialect (kind, text)) (g : IsLexeme dialect (other, text)) : kind = other := by
  have both := (isWhole_of_isLexeme h).read.symm.trans (isWhole_of_isLexeme g).read
  exact Except.ok.inj (congrArg Lexeme.Reading.outcome both)

theorem Word.join_lines (words : List Word) :
    String.join (words.map fun w => "\n" ++ w.2) = String.ofList (print '\n' words) := by
  induction words with
  | nil => rfl
  | cons w words ih =>
    rw [List.map_cons, String.join_cons, ih, print_cons, String.ofList_cons, String.ofList_append,
      String.ofList_toList, String.append_assoc]
    rfl

/-- Every token that a tokenizer gives on any text before its end, errors or not before it, is the
only token of its text, which therefore tells its kind; and texts of single tokens, each on a line
of its own, are read as these tokens. -/
theorem tokens_can_be_rejoined (dialect : Dialect) :
    (∀ source calls token,
      ((Tokenizer.ofSource dialect source).after calls).next.1 = .ok token →
        token.isEnd = false → IsLexeme dialect token.spelling) ∧
    (∀ kind other text, IsLexeme dialect (kind, text) → IsLexeme dialect (other, text) →
      kind = other) ∧
    ∀ words : List Word, (∀ w ∈ words, IsLexeme dialect w) →
      ∃ tokens, tokenize dialect (String.join (words.map fun w => "\n" ++ w.2)) = .ok tokens ∧
        tokens.map (·.spelling) = words ++ [(.endOfInput, "")] := by
  refine ⟨fun source calls token result other => ?_, fun _ _ _ => IsLexeme.kind_unique,
    fun words lexemes => ?_⟩
  · have whole := Token.isWhole_spelling result other
    rw [Tokenizer.dialect_after] at whole
    exact whole.isLexeme
  · rw [Word.join_lines]
    exact tokenize_print rfl (fun w member => isWhole_of_isLexeme (lexemes w member))
      fun _ _ => .inl rfl

/-- The tokens behind a character that begins none, in another order. -/
theorem tokens_behind_error_can_be_rejoined :
    ∃ tokens, tokenize Options.full.toDialect "\n--c\n-\n[[a]]" = .ok tokens ∧
      tokens.map (·.spelling) =
        [(.comment, "--c"), (.symbol, "-"), (.string, "[[a]]"), (.endOfInput, "")] := by
  obtain ⟨alone, -, rejoined⟩ := tokens_can_be_rejoined Options.full.toDialect
  have minus := alone "?-[[a]]--c" 1 ⟨.symbol, "-", ⟨1, 1, 0⟩⟩ rfl rfl
  have string := alone "?-[[a]]--c" 2 ⟨.string, "[[a]]", ⟨2, 1, 0⟩⟩ rfl rfl
  have comment := alone "?-[[a]]--c" 3 ⟨.comment, "--c", ⟨7, 1, 0⟩⟩ rfl rfl
  exact rejoined [(.comment, "--c"), (.symbol, "-"), (.string, "[[a]]")]
    (List.forall_mem_cons.mpr ⟨comment, List.forall_mem_cons.mpr ⟨minus,
      List.forall_mem_cons.mpr ⟨string, nofun⟩⟩⟩)

end LuaFrontend
