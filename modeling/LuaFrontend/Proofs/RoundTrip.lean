import LuaFrontend.Proofs.PrintedWords
import LuaFrontend.Proofs.StatementReadback

set_option autoImplicit false

namespace LuaFrontend

open LuaFrontend.Grammar
open LuaFrontend.Parser

variable {dialect : Dialect}

/-- An expression is read back as an operand and, if suffixes may follow it, as their base. -/
structure Expression.IsReadBack (dialect : Dialect) (e : Expression) : Prop where
  operand : e.ReadsBack dialect
  suffixed : e.isSuffixable → e.ReadsBackSuffixed dialect

theorem Expression.IsReadBack.of_suffixed {e : Expression} (suffixable : e.isSuffixable)
    (h : e.ReadsBackSuffixed dialect) : e.IsReadBack dialect :=
  ⟨readsBack_of_suffixed suffixable h, fun _ => h⟩

theorem Expression.IsReadBack.of_operand {e : Expression} (other : e.isSuffixable = false)
    (h : e.ReadsBack dialect) : e.IsReadBack dialect := by
  refine ⟨h, fun suffixable => ?_⟩
  rw [other] at suffixable
  cases suffixable

mutual

theorem Expression.isReadBack : ∀ e : Expression, e.IsReadBack dialect
  | .literal value => .of_operand rfl (readsBack_literal value)
  | .name id => .of_suffixed rfl (readsBackSuffixed_name id)
  | .group inner =>
    .of_suffixed rfl (readsBackSuffixed_group (Expression.isReadBack inner).operand)
  | .unary _ operand =>
    .of_operand rfl (readsBack_unary (Expression.isReadBack operand).operand)
  | .binary _ left right => .of_operand rfl
    (readsBack_binary (Expression.isReadBack left).operand (Expression.isReadBack right).operand)
  | .index base key => .of_suffixed rfl
    (readsBackSuffixed_index (Expression.isReadBack base).suffixed
      (Expression.isReadBack key).operand)
  | .member base field => .of_suffixed rfl
    (readsBackSuffixed_member (Expression.isReadBack base).suffixed field)
  | .call callee arguments => .of_suffixed rfl
    (readsBackSuffixed_call (Expression.isReadBack callee).suffixed
      (Arguments.readsBack arguments))
  | .methodCall object method arguments => .of_suffixed rfl
    (readsBackSuffixed_methodCall (Expression.isReadBack object).suffixed method
      (Arguments.readsBack arguments))
  | .table fields =>
    .of_operand rfl (readsBack_table (TableField.readsBackAll fields))
  | .function value => .of_operand rfl (readsBack_function (FunctionBody.readsBack value))

theorem Expression.isReadBackAll : ∀ values : List Expression, ∀ e ∈ values, e.IsReadBack dialect
  | [] => fun _ none => nomatch none
  | e :: others =>
    List.forall_mem_cons.mpr ⟨Expression.isReadBack e, Expression.isReadBackAll others⟩

theorem Arguments.readsBack : ∀ arguments : Arguments, arguments.ReadsBack dialect
  | .list values =>
    readsBack_list fun e member => (Expression.isReadBackAll values e member).operand
  | .table fields => readsBack_tableArgument (TableField.readsBackAll fields)
  | .string value => readsBack_string value

theorem TableField.readsBack : ∀ f : TableField, f.ReadsBack dialect
  | .value value => readsBack_value (Expression.isReadBack value).operand
  | .keyed key value =>
    readsBack_keyed (Expression.isReadBack key).operand (Expression.isReadBack value).operand
  | .named name value => readsBack_named name (Expression.isReadBack value).operand

theorem TableField.readsBackAll : ∀ fields : List TableField, ∀ f ∈ fields, f.ReadsBack dialect
  | [] => fun _ none => nomatch none
  | f :: others =>
    List.forall_mem_cons.mpr ⟨TableField.readsBack f, TableField.readsBackAll others⟩

theorem FunctionBody.readsBack : ∀ value : FunctionBody, value.ReadsBack dialect
  | .mk _ _ block => readsBack_functionBody (goes_block (Statement.readsBackAll block))

theorem Clause.readsBack : ∀ c : Clause, c.ReadsBack dialect
  | .mk condition block =>
    readsBack_clause (Expression.isReadBack condition).operand
      (goes_block (Statement.readsBackAll block))

theorem Clause.readsBackAll : ∀ clauses : List Clause, ∀ c ∈ clauses, c.ReadsBack dialect
  | [] => fun _ none => nomatch none
  | c :: others => List.forall_mem_cons.mpr ⟨Clause.readsBack c, Clause.readsBackAll others⟩

theorem Statement.readsBack : ∀ s : Statement, s.ReadsBack dialect
  | .localVariables _ values =>
    readsBack_localVariables fun e member => (Expression.isReadBackAll values e member).operand
  | .assignment targets values => readsBack_assignment
    (fun e member => (Expression.isReadBackAll targets e member).suffixed)
    (fun e member => (Expression.isReadBackAll values e member).operand)
  | .call expression => readsBack_call (Expression.isReadBack expression).suffixed
  | .conditional clauses otherwise =>
    readsBack_conditional (Clause.readsBackAll clauses) (Statement.readsBackElse otherwise)
  | .whileLoop condition block =>
    readsBack_whileLoop (Expression.isReadBack condition).operand
      (goes_block (Statement.readsBackAll block))
  | .repeatLoop block condition =>
    readsBack_repeatLoop (goes_block (Statement.readsBackAll block))
      (Expression.isReadBack condition).operand
  | .numericFor counter first last step block =>
    readsBack_numericFor counter (Expression.isReadBack first).operand
      (Expression.isReadBack last).operand (Expression.readsBackStep step)
      (goes_block (Statement.readsBackAll block))
  | .genericFor _ iterators block => readsBack_genericFor
    (fun e member => (Expression.isReadBackAll iterators e member).operand)
    (goes_block (Statement.readsBackAll block))
  | .doBlock block => readsBack_doBlock (goes_block (Statement.readsBackAll block))
  | .returning values =>
    readsBack_returning fun e member => (Expression.isReadBackAll values e member).operand
  | .breakLoop => readsBack_breakLoop
  | .goto label => readsBack_goto label
  | .label name => readsBack_label name
  | .localFunction name value => readsBack_localFunction name (FunctionBody.readsBack value)
  | .function name value => readsBack_functionStatement name (FunctionBody.readsBack value)

theorem Statement.readsBackElse : ∀ otherwise : Option (List Statement),
    ∀ block ∈ otherwise, Block.ReadsBack dialect block
  | none => fun _ none => nomatch none
  | some block => fun _ same => Option.some.inj same ▸ goes_block (Statement.readsBackAll block)

theorem Expression.readsBackStep : ∀ step : Option Expression, ∀ e ∈ step, e.ReadsBack dialect
  | none => fun _ none => nomatch none
  | some step => fun _ same => Option.some.inj same ▸ (Expression.isReadBack step).operand

theorem Statement.readsBackAll : ∀ block : List Statement, ∀ s ∈ block, s.ReadsBack dialect
  | [] => fun _ none => nomatch none
  | s :: others =>
    List.forall_mem_cons.mpr ⟨Statement.readsBack s, Statement.readsBackAll others⟩

end

/-- The text has the words of the block and no others, whatever its layout and its comments. -/
def Block.IsText (dialect : Dialect) (block : Block) (source : String) : Prop :=
  ∃ tokens, tokenize dialect source = .ok tokens ∧
    (tokens.filter (!·.isComment)).map (·.spelling) =
      Statement.wordsAll dialect block ++ [(.endOfInput, "")]

theorem goes_chunk {block : Block} {depth : Nat} (proper : Statement.IsProperAll dialect block)
    (room : block.levels ≤ depth) :
    Goes dialect (chunk depth) (Statement.wordsAll dialect block ++ [(.endOfInput, "")])
      [(.endOfInput, "")] (Alike Statement.mapSpansAll block ·.block) := by
  have comments : Goes dialect (liftM Cursor.takeComments) [(.endOfInput, "")]
      [(.endOfInput, "")] fun _ => True :=
    fun c offers => ⟨c.comments, { c with aside := [] }, rfl, trivial, offers.input,
      offers.dialect_eq, offers.words⟩
  have read : Block.ReadsBack dialect block := goes_block (Statement.readsBackAll block)
  refine goes_production ((read proper room rfl).bind fun inside same => ?_)
  refine goes_current fun start => ?_
  exact comments.bind fun _ _ => goes_pure same

/-- A proper block comes back from every text that it is, if its levels of nesting are allowed. -/
theorem parse_of_isText {options : Options} {block : Block} {source : String}
    (proper : Statement.IsProperAll options.toDialect block)
    (room : block.levels ≤ options.maxDepth) (text : block.IsText options.toDialect source) :
    ∃ chunk, parse options source = .ok chunk ∧ chunk.block.eraseSpans = block.eraseSpans := by
  obtain ⟨tokens, tokenized, spelled⟩ := text
  obtain ⟨c, opened, upcoming, same, input⟩ := ofSource_of_tokenize tokenized
  obtain ⟨chunk, d, run, alike, -⟩ := goes_chunk proper room ⟨input, same, _, upcoming, spelled⟩
  exact ⟨chunk, parse_ok.mpr ⟨c, d, opened, run⟩, alike.symm⟩

theorem filter_of_no_comments {tokens : List Token} (h : ∀ t ∈ tokens, t.isComment = false) :
    tokens.filter (!·.isComment) = tokens :=
  List.filter_eq_self.mpr fun t member => by rw [h t member, Bool.not_false]

section Printing

variable {gap : Char} {block : Block}

theorem tokenize_of_isProperAll (space : isSpace gap)
    (proper : Statement.IsProperAll dialect block) :
    ∃ tokens, tokenize dialect (block.print dialect gap) = .ok tokens ∧
      tokens.map (·.spelling) = Statement.wordsAll dialect block ++ [(.endOfInput, "")] ∧
      ∀ t ∈ tokens, t.isComment = false := by
  have words := Statement.proper_wordsAll proper
  obtain ⟨tokens, tokenized, spelled⟩ := tokenize_print space
    (fun w member => (words w member).whole) fun w member => .inr (words w member).isSeen
  refine ⟨tokens, tokenized, spelled, fun t member => ?_⟩
  have among : t.spelling ∈ Statement.wordsAll dialect block ++ [(.endOfInput, "")] :=
    spelled ▸ List.mem_map_of_mem member
  have seen : t.spelling.1 ≠ .comment := by
    rcases List.mem_append.mp among with word | final
    · exact (words _ word).isSeen
    · rw [List.mem_singleton.mp final]
      decide
  simpa [Token.isComment, Token.spelling] using seen

theorem isText_print (space : isSpace gap) (proper : Statement.IsProperAll dialect block) :
    block.IsText dialect (block.print dialect gap) := by
  obtain ⟨tokens, tokenized, spelled, seen⟩ := tokenize_of_isProperAll space proper
  exact ⟨tokens, tokenized, by rw [filter_of_no_comments seen, spelled]⟩

/-- There are no comments in a printed block. -/
theorem comments_of_parse_print {options : Options} {chunk : Chunk} (space : isSpace gap)
    (proper : Statement.IsProperAll options.toDialect block)
    (h : parse options (block.print options.toDialect gap) = .ok chunk) : chunk.comments = [] := by
  obtain ⟨tokens, tokenized, -, seen⟩ := tokenize_of_isProperAll space proper
  obtain ⟨c, d, opened, run⟩ := parse_ok.mp h
  obtain ⟨-, remarks, -, input, closed⟩ := ofSource_view opened
  obtain ⟨-, -, -, -, -, comments⟩ := chunk_ok input closed run
  obtain ⟨before, items, same⟩ := tokenize_ok.mp tokenized
  have none : c.remarks = [] := by
    rw [remarks, items, List.filterMap_map, List.filterMap_eq_nil_iff]
    intro t member
    have other := seen t (same ▸ List.mem_append_left _ member)
    simp [Outcome.comment?, other]
  rw [comments, none, List.map_nil]

end Printing

/-- Parsing undoes printing. A proper block whose levels of nesting are allowed is what its printed
text is parsed into, places apart, whatever white space stands between its words. So is every other
text with the same words, however they are laid out and whatever comments stand between them. -/
theorem parse_undoes_print {options : Options} {block : Block}
    (proper : Statement.IsProperAll options.toDialect block)
    (room : block.levels ≤ options.maxDepth) :
    (∀ gap, isSpace gap → ∃ chunk, parse options (block.print options.toDialect gap) = .ok chunk ∧
      chunk.block.eraseSpans = block.eraseSpans ∧ chunk.comments = []) ∧
    ∀ source, block.IsText options.toDialect source →
      ∃ chunk, parse options source = .ok chunk ∧ chunk.block.eraseSpans = block.eraseSpans := by
  refine ⟨fun gap space => ?_, fun source => parse_of_isText proper room⟩
  obtain ⟨chunk, parsed, same⟩ := parse_of_isText proper room (isText_print space proper)
  exact ⟨chunk, parsed, same, comments_of_parse_print space proper parsed⟩

/-- A sign stands before a power, in a call on one line with a comment behind it. -/
theorem parse_undoes_print_of_call :
    ∃ chunk, parse .forParser "f(-x^2); --c" = .ok chunk ∧
      chunk.block.eraseSpans = [.call (.call (.name ⟨"f", {}⟩) (.list [.unary .negate
        (.binary .power (.name ⟨"x", {}⟩) (.literal ⟨.number, "2", {}⟩))]))] := by
  have lexeme : ∀ w ∈ [(.identifier, "f"), (.symbol, "-"), (.identifier, "x"), (.symbol, "^"),
      (.number, "2")], IsLexeme Options.forParser.toDialect w := by
    simp only [List.forall_mem_cons]
    refine ⟨?_, ?_, ?_, ?_, ?_, nofun⟩
    all_goals exact ⟨⟨1, 2, 1⟩, ⟨2, 2, 1⟩, rfl⟩
  simp only [List.forall_mem_cons] at lexeme
  obtain ⟨f, minus, x, power, two, -⟩ := lexeme
  have proper : Statement.IsProperAll Options.forParser.toDialect [.call (.call (.name ⟨"f", {}⟩)
      (.list [.unary .negate (.binary .power (.name ⟨"x", {}⟩) (.literal ⟨.number, "2", {}⟩))]))] :=
    ⟨⟨rfl, rfl, f, ⟨minus, rfl, power, rfl, rfl, x, two⟩, trivial⟩, nofun, trivial⟩
  have text : Block.IsText Options.forParser.toDialect [.call (.call (.name ⟨"f", {}⟩)
      (.list [.unary .negate (.binary .power (.name ⟨"x", {}⟩) (.literal ⟨.number, "2", {}⟩))]))]
      "f(-x^2); --c" :=
    ⟨[⟨.identifier, "f", ⟨0, 1, 0⟩⟩, ⟨.symbol, "(", ⟨1, 1, 0⟩⟩, ⟨.symbol, "-", ⟨2, 1, 0⟩⟩,
      ⟨.identifier, "x", ⟨3, 1, 0⟩⟩, ⟨.symbol, "^", ⟨4, 1, 0⟩⟩, ⟨.number, "2", ⟨5, 1, 0⟩⟩,
      ⟨.symbol, ")", ⟨6, 1, 0⟩⟩, ⟨.symbol, ";", ⟨7, 1, 0⟩⟩, ⟨.comment, "--c", ⟨9, 1, 0⟩⟩,
      ⟨.endOfInput, "", ⟨12, 1, 0⟩⟩],
      rfl, rfl⟩
  exact (parse_undoes_print proper (by decide)).2 _ text

end LuaFrontend
