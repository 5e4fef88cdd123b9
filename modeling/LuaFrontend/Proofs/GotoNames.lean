import LuaFrontend.Proofs.FeatureSwitches

set_option autoImplicit false

namespace LuaFrontend

/-- The dialect with contextual `goto`. -/
def Dialect.freeGoto (dialect : Dialect) : Dialect := { dialect with contextualGoto := true }

/-- The words of the language other than `goto` do not depend on what that is. -/
theorem wordKind_of_ne {word : String} (h : word ≠ "goto") (contextual other : Bool) :
    wordKind contextual word = wordKind other word := by
  simp [wordKind, h]

namespace Token

variable {t : Token}

/-- The token, as a name if it is the word `goto`. -/
def freed (t : Token) : Token := if t.isWord "goto" then { t with kind := .identifier } else t

/-- No name is spelled `goto`. -/
def IsStrict (t : Token) : Prop := t.kind = .identifier → t.text ≠ "goto"

theorem freed_of_other (h : t.isWord "goto" = false) : t.freed = t := by
  rw [freed, h, if_neg Bool.false_ne_true]

theorem freed_of_kind (h : t.kind ≠ .keyword) : t.freed = t :=
  freed_of_other (by simp [isWord, isKeyword, h])

theorem freed_of_goto (h : t.isWord "goto") : t.freed = { t with kind := .identifier } := by
  rw [freed, if_pos h]

theorem eq_of_isWord {word : String} (h : t.isWord word) : t = ⟨.keyword, word, t.start⟩ := by
  simp only [isWord, isKeyword, Bool.and_eq_true, beq_iff_eq] at h
  obtain ⟨kind, text⟩ := h
  rw [← kind, ← text]

theorem kind_of_isWord {word : String} (h : t.isWord word) : t.kind = .keyword := by
  rw [eq_of_isWord h]

/-- A test that treats `goto` alike as name and as keyword gives the same answer. -/
theorem freed_congr {α : Type} {test : Token → α}
    (h : ∀ start, test ⟨.identifier, "goto", start⟩ = test ⟨.keyword, "goto", start⟩) :
    test t.freed = test t := by
  cases goto : t.isWord "goto" with
  | false => rw [freed_of_other goto]
  | true =>
    rw [freed_of_goto goto, eq_of_isWord goto]
    exact h t.start

theorem freed_word (start : Position) (word : String) :
    freed ⟨wordKind false word, word, start⟩ = ⟨wordKind true word, word, start⟩ := by
  by_cases same : word = "goto"
  · subst same
    rfl
  · rw [freed_of_other (by simp [isWord, same]), wordKind_of_ne same]

theorem isEnd_freed (t : Token) : t.freed.isEnd = t.isEnd := freed_congr fun _ => rfl

theorem isComment_freed (t : Token) : t.freed.isComment = t.isComment := freed_congr fun _ => rfl

end Token

/-- The pattern does not tell the name `goto` from the keyword. -/
def Pattern.IgnoresGoto (pattern : Pattern) : Prop :=
  ∀ start, pattern.accepts ⟨.identifier, "goto", start⟩ = false ∧
    pattern.accepts ⟨.keyword, "goto", start⟩ = false

theorem Pattern.ignoresGoto_text {text : String} (h : text ≠ "goto") :
    (Pattern.text text).IgnoresGoto :=
  fun _ => ⟨rfl, by simp [accepts, isFreelySpelled, h.symm]⟩

theorem Pattern.IgnoresGoto.accepts_freed {pattern : Pattern} (h : pattern.IgnoresGoto)
    (t : Token) : pattern.accepts t.freed = pattern.accepts t :=
  Token.freed_congr fun start => (h start).1.trans (h start).2.symm

theorem Pattern.IgnoresGoto.accepts_of_isWord {pattern : Pattern} (h : pattern.IgnoresGoto)
    {t : Token} (goto : t.isWord "goto") : pattern.accepts t = false := by
  rw [Token.eq_of_isWord goto]
  exact (h t.start).2

/-- What a cursor has before it, with the word `goto` as a name. -/
def Outcome.freed : Outcome → Outcome := Except.map Token.freed

namespace Outcome

theorem isSignificant_freed (o : Outcome) : o.freed.isSignificant = o.isSignificant := by
  cases o with
  | ok t => exact congrArg (!·) t.isComment_freed
  | error e => rfl

theorem comment?_freed (o : Outcome) : o.freed.comment? = o.comment? := by
  cases o with
  | error e => rfl
  | ok t =>
    cases goto : t.isWord "goto" with
    | false => exact congrArg (fun u => comment? (.ok u)) (Token.freed_of_other goto)
    | true =>
      have other : t.isComment = false := by
        simp [Token.isComment, Token.kind_of_isWord goto]
      have otherFreed := t.isComment_freed.trans other
      simp only [freed, Except.map, comment?, other, otherFreed]
      rfl

theorem IsInput.map_freed {outcomes : List Outcome} (h : IsInput outcomes) :
    IsInput (outcomes.map freed) := by
  induction h with
  | final last => exact .final ((Token.isEnd_freed _).trans last)
  | @token t rest more spelled _ ih =>
    refine .token ((Token.isEnd_freed t).trans more) (fun vararg => ?_) ih
    cases goto : t.isWord "goto" with
    | true =>
      rw [Token.freed_of_goto goto] at vararg
      exact TokenKind.noConfusion vararg
    | false =>
      rw [Token.freed_of_other goto] at vararg ⊢
      exact spelled vararg
  | error _ ih => exact .error ih

end Outcome

namespace Lexeme

variable {dialect : Dialect} {s : List Char} {kind : TokenKind}

theorem kind_ofPart {p : Part} {k : TokenKind} {fault : Fault}
    (ok : (Reading.ofPart p k fault).outcome = .ok kind) : kind = k := by
  simp only [Reading.ofPart] at ok
  split at ok
  · exact (Except.ok.inj ok).symm
  · cases ok

/-- What begins like no name is neither a name nor a keyword. -/
theorem kind_of_read_other (begins : start dialect s ≠ .name)
    (ok : (read dialect s).outcome = .ok kind) : kind ≠ .identifier ∧ kind ≠ .keyword := by
  unfold read at ok
  cases first : start dialect s with
  | name => exact absurd first begins
  | quote | number | comment =>
    rw [first] at ok
    rw [kind_ofPart ok]
    decide
  | longBracket =>
    rw [first] at ok
    simp only [readLongString] at ok
    split at ok <;> rw [kind_ofPart ok] <;> decide
  | symbol =>
    rw [first] at ok
    simp only [readSymbol] at ok
    split at ok
    · cases ok
      decide
    · split at ok
      · cases ok
        split <;> decide
      · cases ok

theorem read_of_name (begins : start dialect s = .name) : read dialect s = readName dialect s := by
  rw [read, begins]

/-- Contextual `goto` matters to words only. -/
theorem read_freeGoto_of_other (begins : start dialect s ≠ .name) :
    read dialect.freeGoto s = read dialect s := by
  have same : start dialect.freeGoto s = start dialect s := rfl
  unfold read
  rw [same]
  cases first : start dialect s with
  | name => exact absurd first begins
  | quote | number | comment | longBracket | symbol => rfl

end Lexeme

namespace Tokenizer

variable {t : Tokenizer}

/-- The next token under contextual `goto`. -/
theorem takeLexeme_freeGoto (strict : t.dialect.contextualGoto = false) :
    (t.inDialect t.dialect.freeGoto).takeLexeme =
      (Outcome.freed t.takeLexeme.1, t.takeLexeme.2.inDialect t.dialect.freeGoto) := by
  by_cases begins : Lexeme.start t.dialect t.rest = .name
  · have alsoBegins : Lexeme.start t.dialect.freeGoto t.rest = .name := begins
    simp only [takeLexeme, inDialect, Lexeme.read_of_name begins, Lexeme.read_of_name alsoBegins,
      Lexeme.readName, Outcome.freed, Except.map, strict, Token.freed_word]
    rfl
  · rw [takeLexeme_inDialect (Lexeme.read_freeGoto_of_other begins)]
    refine Prod.ext ?_ rfl
    simp only [takeLexeme]
    split
    · next kind ok =>
      have other := (Lexeme.kind_of_read_other begins ok).2
      exact congrArg Except.ok (Token.freed_of_kind other).symm
    · rfl

theorem next_freeGoto (strict : t.dialect.contextualGoto = false) :
    (t.inDialect t.dialect.freeGoto).next =
      (Outcome.freed t.next.1, t.next.2.inDialect t.dialect.freeGoto) :=
  takeLexeme_freeGoto (t := t.skipSpace) strict

/-- Where `goto` is reserved, no name is spelled so. -/
theorem isStrict_of_next (strict : t.dialect.contextualGoto = false) {token : Token}
    (result : t.next.1 = .ok token) : token.IsStrict := by
  intro name text
  have read := read_of_next result
  have ok : (Lexeme.read t.dialect t.skipSpace.rest).outcome = .ok token.kind := by rw [read]
  by_cases begins : Lexeme.start t.dialect t.skipSpace.rest = .name
  · rw [Lexeme.read_of_name begins, Lexeme.readName, strict] at read
    obtain ⟨taken, -, kind⟩ := Lexeme.Reading.mk.inj read
    rw [taken, String.ofList_toList, text, name] at kind
    revert kind
    decide
  · exact (Lexeme.kind_of_read_other begins ok).1 name

end Tokenizer

namespace Lexed

theorem ofTokenizer_freeGoto {t : Tokenizer} (strict : t.dialect.contextualGoto = false)
    (calls : Nat) : ofTokenizer calls (t.inDialect t.dialect.freeGoto) =
      ⟨(ofTokenizer calls t).items.map Outcome.freed, (ofTokenizer calls t).final⟩ := by
  induction calls generalizing t with
  | zero => rfl
  | succ calls ih =>
    have ends : (t.inDialect t.dialect.freeGoto).isDone = t.isDone := rfl
    rw [ofTokenizer, ofTokenizer, ends]
    cases t.isDone with
    | true => rfl
    | false =>
      have others := ih (t := t.next.2) strict
      rw [if_neg Bool.false_ne_true, if_neg Bool.false_ne_true, Tokenizer.next_freeGoto strict]
      exact congrArg (fun l : Lexed => ({ l with items := _ :: l.items } : Lexed)) others

theorem isStrict_of_mem_ofTokenizer {t : Tokenizer} (strict : t.dialect.contextualGoto = false)
    {calls : Nat} {token : Token} (h : .ok token ∈ (ofTokenizer calls t).items) :
    token.IsStrict := by
  induction calls generalizing t with
  | zero => cases h
  | succ calls ih =>
    rw [ofTokenizer] at h
    split at h
    · cases h
    · rcases List.mem_cons.mp h with first | later
      · exact Tokenizer.isStrict_of_next strict first.symm
      · exact ih (t := t.next.2) strict later

variable {dialect : Dialect} {source : String}

/-- A text under contextual `goto`: the same tokens, except that the word is a name. -/
theorem ofSource_freeGoto (strict : dialect.contextualGoto = false) :
    ofSource dialect.freeGoto source =
      ⟨(ofSource dialect source).items.map Outcome.freed, (ofSource dialect source).final⟩ :=
  ofTokenizer_freeGoto (t := Tokenizer.ofSource dialect source) strict _

end Lexed

namespace Cursor

/-- A text that has a first token has one under contextual `goto`. -/
theorem opening_freed {small large : Dialect} {final : Token} {aside other : List Token}
    {items : List Outcome} {c : Cursor} (h : opening small final aside items = .ok c) :
    ∃ d, opening large final other (items.map Outcome.freed) = .ok d := by
  induction items generalizing aside other with
  | nil => exact ⟨_, rfl⟩
  | cons o items ih =>
    cases o with
    | error e => cases h
    | ok t =>
      rw [opening] at h
      change ∃ d, opening large final other (.ok t.freed :: items.map Outcome.freed) = .ok d
      rw [opening, t.isComment_freed]
      split at h
      · next comment =>
        rw [if_pos comment]
        exact ih h
      · next token =>
        rw [if_neg token]
        exact ⟨_, rfl⟩

/-- The second cursor has labels and the same before it as the first one, which has `goto`
reserved, except that the word is a name. -/
structure Frees (c d : Cursor) : Prop where
  upcoming : d.upcoming = c.upcoming.map Outcome.freed
  labels : d.dialect.labels
  input : Outcome.IsInput c.upcoming
  strict : ∀ t, .ok t ∈ c.upcoming → t.IsStrict

theorem ofSource_frees {dialect : Dialect} {source : String} {c : Cursor}
    (strict : dialect.contextualGoto = false) (labels : dialect.labels)
    (h : ofSource dialect source = .ok c) :
    ∃ d, ofSource dialect.freeGoto source = .ok d ∧ c.Frees d ∧ d.remarks = c.remarks := by
  obtain ⟨upcoming, remarks, -, input, -⟩ := ofSource_view h
  have words : Lexed.ofSource dialect.freeGoto source = _ := Lexed.ofSource_freeGoto strict
  have opened : ∃ d, ofSource dialect.freeGoto source = .ok d := by
    rw [ofSource, ofLexed] at h
    rw [ofSource, ofLexed, words]
    dsimp only
    exact opening_freed h
  obtain ⟨d, opened⟩ := opened
  obtain ⟨others, otherRemarks, same, -, -⟩ := ofSource_view opened
  have last := Lexed.isEnd_final dialect source
  refine ⟨d, opened, ⟨?_, ?_, input, ?_⟩, ?_⟩
  · have final : Outcome.freed (.ok (Lexed.ofSource dialect source).final) =
        .ok (Lexed.ofSource dialect source).final := by
      refine congrArg Except.ok (Token.freed_of_kind ?_)
      simp only [Token.isEnd, beq_iff_eq] at last
      simp [last]
    have seen : Outcome.isSignificant ∘ Outcome.freed = Outcome.isSignificant :=
      funext Outcome.isSignificant_freed
    rw [others, words, upcoming, List.filter_map, seen, List.map_append, List.map_singleton, final]
  · rw [same]
    exact labels
  · intro t member
    rw [upcoming] at member
    rcases List.mem_append.mp member with item | final
    · exact Lexed.isStrict_of_mem_ofTokenizer strict (List.mem_filter.mp item).1
    · obtain rfl := Except.ok.inj (List.mem_singleton.mp final)
      intro name
      simp [Token.isEnd, name] at last
  · have told : Outcome.comment? ∘ Outcome.freed = Outcome.comment? :=
      funext Outcome.comment?_freed
    rw [otherRemarks, words, List.filterMap_map, told, remarks]

end Cursor

end LuaFrontend
