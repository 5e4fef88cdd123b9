import LuaFrontend.Proofs.ForesightLoops
import LuaFrontend.Proofs.ListReadback
import LuaFrontend.Proofs.RejoinedTokens

set_option autoImplicit false

namespace LuaFrontend

open LuaFrontend.Grammar
open LuaFrontend.Parser
open Outcome (IsInput)

instance : Nonempty Identifier := ⟨.ofToken ⟨.identifier, "", {}⟩⟩

instance : Nonempty Expression := ⟨.table []⟩

instance : Nonempty Arguments := ⟨.list []⟩

instance : Nonempty FunctionBody := ⟨.mk [] false []⟩

instance : Nonempty Parameters := ⟨{}⟩

namespace Word

def nilWord : Word := (.nil, "nil")

def emptyString : Word := (.string, "''")

/-- An operand begins with it. -/
def beginsOperand (w : Word) : Bool :=
  [TokenKind.identifier, .nil, .boolean, .number, .string, .vararg].contains w.1 ||
    w.unary?.isSome || w.isText "function" || w.isText "\x7b" || w.isText "("

variable {dialect : Dialect}

theorem beginsOperand_eq_false {w : Word} : w.beginsOperand = false ↔
    w.1 ∉ [.identifier, .nil, .boolean, .number, .string, .vararg] ∧ w.unary? = none ∧
      w.isText "function" = false ∧ w.isText "\x7b" = false ∧ w.isText "(" = false := by
  simp [beginsOperand, and_assoc]

theorem not_identifier {w : Word} (h : w.beginsOperand = false) : w.1 ≠ .identifier := by
  intro named
  exact (beginsOperand_eq_false.mp h).1 (by simp [named])

theorem eq_of_isText {w : Word} {text : String} (h : w.isText text) :
    Pattern.isFreelySpelled w.1 = false ∧ w.2 = text := by
  simpa [isText] using h

/-- A word is spelled in one way. -/
theorem isText_other {w : Word} {text other : String} (h : w.isText text) (differ : text ≠ other) :
    w.isText other = false := by
  simp [isText, (eq_of_isText h).2, differ]

/-- Whether a word closes an expression is a matter of its text. -/
theorem closes_of_isText {w : Word} {text : String} (h : w.isText text)
    (closes : (sign text).closes) : w.closes := by
  obtain ⟨kind, spelled⟩ := w
  obtain ⟨fixed, rfl⟩ := eq_of_isText h
  have same (other : String) : isText (kind, spelled) other = (sign spelled).isText other := by
    rw [isText, fixed]
    rfl
  have notString : (kind == .string) = false := by
    cases kind <;> first | rfl | cases fixed
  simp only [Word.closes, Bool.and_eq_true, Bool.not_eq_true', isSuffix, same, notString,
    Option.isNone_iff_eq_none] at closes ⊢
  refine ⟨closes.1, ?_⟩
  have none : BinaryOperator.ofText? spelled = none := closes.2
  rw [binary?, binaryOperator?]
  split
  · exact none
  · rfl

theorem isSuffix_eq_false {w : Word} : w.isSuffix = false ↔
    w.isText "[" = false ∧ w.isText "." = false ∧ w.isText ":" = false ∧ w.isText "(" = false ∧
      w.isText "\x7b" = false ∧ w.1 ≠ .string := by
  simp [isSuffix, and_assoc]

theorem isProper_nilWord : nilWord.IsProper dialect :=
  isProper_letterWord (by decide) rfl

theorem isProper_emptyString : emptyString.IsProper dialect := by
  have quote : Lexeme.start dialect ['\'', '\''] = .quote := by
    cases extended : dialect.extendedIdentifiers <;> simp only [Lexeme.start, extended] <;> decide
  refine ⟨⟨⟨_, _, rfl, rfl⟩, ?_⟩, by decide⟩
  change Lexeme.read dialect ['\'', '\''] = _
  rw [Lexeme.read, quote]
  rfl

end Word

/-- What may be written behind a name or a group. -/
inductive Ending where
  /-- Nothing. -/
  | plain
  /-- A field, for the target of an assignment. -/
  | field

namespace Ending

def words : Ending → List Word
  | plain => []
  | field => [Word.sign ".", someName]

def good : Ending → Expression → Prop
  | plain, _ => True
  | field, e => e.isAssignable

variable {dialect : Dialect}

theorem proper (ending : Ending) : Proper dialect ending.words := by
  cases ending with
  | plain => exact .nil
  | field => simpa [words] using ⟨isProper_sign (by decide), isProper_someName⟩

/-- Behind every name or group the ending leads where it is to lead. -/
theorem goes (ending : Ending) (n : Nat) (base : Expression) {v : Word} (rest : List Word)
    (stop : v.isSuffix = false) :
    Goes dialect (grow (suffix? (levels n)) base) (ending.words ++ v :: rest) (v :: rest)
      ending.good := by
  have last (e : Expression) (isGood : ending.good e) :
      Goes dialect (grow (suffix? (levels n)) e) (v :: rest) (v :: rest) ending.good :=
    goes_grow_end (shrinks_suffix? n) isGood (goes_suffix?_end (levels n) e stop)
  cases ending with
  | plain => exact last base trivial
  | field =>
    refine goes_grow (shrinks_suffix? n) ((goes_takes_other rfl).no ((goes_takes rfl).yes ?_)) last
    exact (goes_identifier rfl).bind fun _ _ => goes_pure ⟨_, rfl, rfl⟩

end Ending

namespace Conduct

/-- A block, up to a word that ends it. -/
def block : Conduct Block where
  after w := w.closesBlock
  instead w := w.closesBlock

/-- An operand, up to a word that does not go on with it. -/
def operand : Conduct (Option Expression) where
  after w := w.closes
  instead w := w.beginsOperand = false ∧ w.closes
  good := Present fun _ => True
  enters t := t.kind = .identifier
  words := [Word.nilWord]

def expression : Conduct Expression where
  after w := w.closes
  takes := True
  enters t := t.kind = .identifier
  words := [Word.nilWord]

def expressionList : Conduct (List Expression) where
  after w := w.isText "," = false ∧ w.closes
  takes := True
  enters t := t.kind = .identifier
  words := [Word.nilWord]

/-- Arguments, up to the parenthesis behind them. -/
def arguments : Conduct (List Expression) where
  after w := w.isText ")"
  instead w := w.isText ")"

/-- A name or a group, with this ending where it is completed. -/
def suffixed (ending : Ending) : Conduct (Option Expression) where
  after w := w.isSuffix = false
  instead w := w.1 ≠ .identifier ∧ w.isSuffix = false
  good := Present ending.good
  enters t := t.kind = .identifier

end Conduct

/-- A name or a group with any ending. Whatever is read as one can still be given another ending. -/
structure ForeseesSuffixed (dialect : Dialect) (viable : Prop) (p q : Parser (Option Expression)) :
    Prop where
  foresees : ∀ ending, Foresees dialect viable anywhere p q (.suffixed ending)
  completes : ∀ ⦃c a e⦄ ending, c.IsLegible dialect → p c = .ok (some a) e →
    ∃ taken : List Token, c.upcoming = taken.map .ok ++ e.upcoming ∧ taken ≠ [] ∧
      Completes dialect q taken (.suffixed ending)

/-- The forms that the first reader reads are foreseen by those of the second one, at this level. -/
structure ForeseesForms (dialect : Dialect) (viable : Prop) (below : Below) (n : Nat) : Prop where
  enough : viable → 3 ≤ n
  block : Foretells dialect viable (below .block) (levels n .block) .block
  operand : ∀ limit,
    Foretells dialect viable (below (.operand limit)) (levels n (.operand limit)) .operand
  table : Foresees dialect viable anywhere (below .table) (levels n .table) (.enclosed [])
  arguments : Foretells dialect viable (below .arguments) (levels n .arguments) .arguments
  suffixed : ForeseesSuffixed dialect viable (below .suffixed) (levels n .suffixed)
  reads : ReadsForms below

variable {dialect : Dialect} {viable : Prop} {below : Below} {n : Nat}

section Readings

theorem shrinks_expression? (h : ReadsForms below) : Shrinks (expression? below) :=
  shrinks_of_reads (reads_expression? h) fun e => by simp

theorem shrinks_operand (h : ReadsForms below) (limit : Nat) : Shrinks (below (.operand limit)) :=
  shrinks_of_reads (h (.operand limit)) fun e => by simp

theorem shrinks_callArguments? (h : ReadsForms below) : Shrinks (callArguments? below) :=
  shrinks_of_reads (reads_callArguments? h) fun e => by simp

theorem shrinks_base? (h : ReadsForms below) : Shrinks (base? below) :=
  shrinks_of_reads (reads_base? h) fun e => by simp

end Readings

section Words

theorem foretells_sign (text : String) (h : text ∈ signs) :
    Foretells dialect viable (expect text) (expect text) (.enclosed [.sign text]) := by
  have spelled : ∀ t ∈ signs, (Word.sign t).isText t := by decide
  exact foretells_expect (spelled text h) (isProper_sign h)

theorem foretells_keyword (text : String) (h : text ∈ reservedWords) (other : text ≠ "goto") :
    Foretells dialect viable (expect text) (expect text) (.enclosed [.keyword text]) := by
  have spelled : ∀ t ∈ reservedWords, (Word.keyword t).isText t := by decide
  exact foretells_expect (spelled text h) (isProper_keyword h other)

end Words

section Lists

theorem foretells_expression? (h : ForeseesForms dialect viable below n) :
    Foretells dialect viable (expression? below) (expression? (levels n)) .operand :=
  foretells_production _ (h.operand 0)

theorem foretells_expression (h : ForeseesForms dialect viable below n) :
    Foretells dialect viable (expression below) (expression (levels n)) .expression :=
  foretells_required .expression (foretells_expression? h) (fun _ => id) (shrinks_expression? h.reads)
    (noneTakesNone_of_reads (reads_expression? h.reads))

theorem foretells_expressionList (h : ForeseesForms dialect viable below n) :
    Foretells dialect viable (expressionList below) (expressionList (levels n)) .expressionList :=
  foretells_commaSeparated (foretells_expression h) trivial
    (shrinks_behind "," (reads_expression h.reads))
    (shrinks_behind "," (reads_expression (reads_levels n)))

end Lists

section Functions

/-- The list is complete. -/
def Grammar.Parameters.IsClosed (list : Parameters) : Prop := list.isOpen = false

theorem foretells_comma (list : Parameters) (name : Identifier) :
    Foretells dialect viable
      (do return some { list with names := list.names ++ [name], isOpen := ← takes "," })
      (do return some { list with names := list.names ++ [name], isOpen := ← takes "," })
      { after := fun w => w.isText "," = false, instead := fun w => w.isText "," = false,
        good := Present Parameters.IsClosed } where
  foresees := by
    have made := (@foresees_takes dialect viable ",").then_pure
      (f := fun more => some { list with names := list.names ++ [name], isOpen := more })
        (Present Parameters.IsClosed) fun _ => False.elim
    exact made.mono ⟨fun _ _ => trivial, fun _ => .inr, fun _ => id, id, fun _ => id⟩
  feeds _ := ⟨.nil, fun w rest stops => (goes_takes_other stops).bind fun _ same =>
    goes_pure ⟨_, rfl, same⟩⟩

/-- The last parameter, where no name stands. -/
def dots (list : Parameters) : Parser (Option Parameters) := do
  if ← Cursor.consume (.kind .vararg) then
    return some { list with isVararg := true, isOpen := false }
  else expected .parameter

theorem foresees_dots (list : Parameters) : Foresees dialect viable anywhere (dots list) (dots list)
    { good := Present Parameters.IsClosed, takes := True } := by
  have last : Foretells dialect viable
      (pure (some { list with isVararg := true, isOpen := false }))
      (pure (some { list with isVararg := true, isOpen := false }))
      { good := Present Parameters.IsClosed } := foretells_pure ⟨_, rfl, rfl⟩
  exact foresees_consume_bind (fun t same => inside_of_kind (eq_of_beq same) (by decide)) last
    (foresees_expected .parameter fun _ _ => id) (fun _ _ => ⟨trivial, .inr trivial⟩)
    (fun _ => id) fun noTakes => absurd trivial noTakes

theorem foresees_parameter (list : Parameters) :
    Foresees dialect viable anywhere (parameter list) (parameter list)
      { after := fun w => w.isText "," = false, good := Present Parameters.IsClosed } := by
  unfold parameter
  cases list.isOpen with
  | false => exact foresees_pure none id fun _ _ => id
  | true =>
    have named := foretells_identifier.foresees.bind
      (@foretells_comma dialect viable list) fun _ _ => trivial
    have either : Foresees dialect viable anywhere _ _
        { after := fun w => w.isText "," = false, good := Present Parameters.IsClosed,
          takes := True } :=
      foresees_if (·.kind = .identifier) (fun _ => identifier >>= _) (fun _ => identifier >>= _)
        (fun _ => rfl) (fun _ => rfl) (fun t _ => (named.from fun _ _ => trivial).mono
          ⟨fun w stops => ⟨stops, .inr ⟨trivial, stops⟩⟩, fun _ _ => .inl (.inl trivial), fun _ => id,
            fun _ => .inl trivial, fun _ => False.elim⟩)
        (((foresees_dots list).from fun _ _ => trivial).mono ⟨fun _ _ => trivial, fun _ => .inr,
          fun _ => id, id, fun _ => id⟩) fun noTakes => absurd trivial noTakes
    exact either.mono ⟨fun _ => id, fun _ _ => .inl trivial, fun _ => id, False.elim, fun _ => id⟩

theorem goes_parameter_closed {list : Parameters} (closed : list.IsClosed) (words : List Word) :
    Goes dialect (grow parameter list) words words fun _ => True := by
  obtain ⟨names, isVararg, isOpen⟩ := list
  cases (show isOpen = false from closed)
  exact goes_grow_end shrinks_parameter trivial (goes_parameter_end names isVararg)

theorem goes_parameter_open {list : Parameters} (more : list.isOpen) {v : Word}
    (rest : List Word) (noComma : v.isText "," = false) :
    Goes dialect (parameter list) (someName :: v :: rest) (v :: rest)
      (Present Parameters.IsClosed) := by
  unfold parameter
  rw [more]
  refine goes_current fun start => (goes_identifier rfl).bind fun name _ => ?_
  exact (goes_takes_other noComma).bind fun _ same => goes_pure ⟨_, rfl, same⟩

/-- The parameters up to the parenthesis behind them. An open list is closed by a name. -/
theorem foresees_grow_parameter (list : Parameters) :
    Foresees dialect viable anywhere (grow parameter list) (grow parameter list)
      { after := fun w => w.isText ")", instead := fun w => w.isText ")" } := by
  have noComma (w : Word) (h : w.isText ")") : w.isText "," = false :=
    Word.isText_other h (by decide)
  refine foresees_grow foresees_parameter noComma (fun _ _ => trivial) shrinks_parameter
    shrinks_parameter (fun list c d _ run => by rw [(parameter_none run).2]) (fun _ => id)
    (fun _ list => ?_) (fun _ => ⟨[], .nil, noComma, fun list closed v rest _ =>
      goes_parameter_closed closed _⟩) list
  by_cases more : list.isOpen
  · refine ⟨[someName], by simpa using isProper_someName, fun _ _ => rfl, ?_⟩
    rintro _ rfl v rest stops
    exact goes_grow shrinks_parameter (goes_parameter_open more rest (noComma v stops))
      fun _ closed => goes_parameter_closed closed _
  · refine ⟨[], .nil, noComma, ?_⟩
    rintro _ rfl v rest _
    exact goes_parameter_closed (Bool.eq_false_iff.mpr more) _

theorem foretells_parameters :
    Foretells dialect viable parameters parameters (.enclosed [.sign "(", .sign ")"]) := by
  have closed : Foretells dialect viable (pure ({} : Parameters)) (pure {}) {} :=
    foretells_pure trivial
  have listed := (@foresees_grow_parameter dialect viable {}).bind
    (fun list => (foretells_sign ")" (by decide)).then_pure (f := fun _ => list) (fun _ => True)
      fun _ _ => trivial) fun _ _ => rfl
  refine ((foretells_sign "(" (by decide)).behind (l := .enclosed [.sign ")"])
    (fun _ => ⟨?_, fun _ => ⟨?_, fun w rest _ => ?_⟩⟩)).mono
      ⟨fun _ _ => ⟨trivial, .inl trivial⟩, fun _ _ => .inl trivial, fun _ => id,
        fun _ => trivial, fun _ => False.elim⟩ rfl
  · exact foresees_takes_bind (l := {}) closed
      (listed.mono ⟨fun _ _ => ⟨trivial, .inl trivial⟩, fun _ _ => .inl (.inr trivial),
        fun _ => id, fun _ => .inr trivial, fun _ => id⟩) (fun _ _ => ⟨trivial, .inr trivial⟩)
      (fun _ _ => trivial) fun noTakes => absurd trivial noTakes
  · simpa [Conduct.enclosed] using isProper_sign (by decide)
  · exact (goes_takes rfl).yes (goes_pure trivial)

theorem foretells_functionBody (h : ForeseesForms dialect viable below n) :
    Foretells dialect viable (functionBody below) (functionBody (levels n))
      (.enclosed [.sign "(", .sign ")", .keyword "end"]) := by
  refine foretells_production _ (foretells_parameters.then_enclosed (fun list => ?_) fun _ => trivial)
  refine h.block.then_enclosed (fun block => ?_) fun _ => rfl
  exact (foretells_keyword "end" (by decide) (by decide)).then_pure _ fun _ _ => trivial

end Functions

section Tables

/-- A field, up to a word that does not go on with it. -/
def Conduct.field : Conduct (Option TableField) where
  after w := w.closes ∧ w.isText "=" = false
  instead w := w.beginsOperand = false ∧ w.closes
  good := Present fun _ => True
  enters t := t.kind = .identifier
  words := [Word.nilWord]

/-- The value of a field behind its key. -/
theorem foretells_fieldValue (h : ForeseesForms dialect viable below n)
    (make : Expression → TableField) :
    Foretells dialect viable (expression below >>= fun value => pure (some (make value)))
      (expression (levels n) >>= fun value => pure (some (make value)))
      { Conduct.field with takes := True } :=
  ((foretells_expression h).then_pure (Present fun _ => True) fun _ _ => ⟨_, rfl, trivial⟩).mono
    ⟨fun _ stops => stops.1, fun _ _ => .inl trivial, fun _ => id, id, fun _ => id⟩ rfl

/-- A field behind the bracket before its key. -/
def keyedField (below : Below) : Parser (Option TableField) := do
  let key ← expression below
  expect "]"
  expect "="
  return some (.keyed key (← expression below))

/-- A field at the name before an equals sign. -/
def namedField (below : Below) : Parser (Option TableField) := do
  let name := Identifier.ofToken (← current)
  discard (Cursor.consumeNext (.text "="))
  return some (.named name (← expression below))

/-- A field without a key. -/
def plainField (below : Below) : Parser (Option TableField) := do
  return (← expression? below).map .value

theorem foretells_keyedField (h : ForeseesForms dialect viable below n) :
    Foretells dialect viable (keyedField below) (keyedField (levels n))
      { Conduct.field with
        takes := True, words := [Word.nilWord, .sign "]", .sign "=", Word.nilWord] } := by
  have value (key : Expression) := (foretells_sign "]" (by decide)).behind fun _ =>
    (foretells_sign "=" (by decide)).behind fun _ => foretells_fieldValue h (.keyed key)
  exact ((foretells_expression h).bind value fun _ _ => rfl).mono
    ⟨fun _ stops => ⟨⟨⟨stops, .inl trivial⟩, .inl trivial⟩, .inl trivial⟩,
      fun _ _ => .inl (.inl trivial), fun _ => id, fun _ => .inl trivial, fun _ => id⟩ rfl

theorem foresees_namedField (h : ForeseesForms dialect viable below n) (t : Token) :
    Foresees dialect viable (fun c => at' t c ∧ c.NextIs (.text "="))
      (namedField below) (namedField (levels n)) .field := by
  have behind (u : Token) := ((@foresees_consumeNext dialect viable t
    "=").bind (fun _ => foretells_fieldValue h (.named (.ofToken u))) fun _ _ => trivial)
  have whole := foresees_current (k := { Conduct.field with takes := True }) trivial
    fun u => ((behind u).from fun _ start => start.1).mono
      ⟨fun _ stops => ⟨stops, .inl trivial⟩, fun _ _ => .inl (.inl trivial), fun _ => id,
        fun _ => .inl trivial, fun _ _ => trivial⟩
  exact whole.mono ⟨fun _ => id, fun _ _ => .inl trivial, fun _ => id, False.elim, fun _ => id⟩

theorem foretells_plainField (h : ForeseesForms dialect viable below n) :
    Foretells dialect viable (plainField below) (plainField (levels n)) .field := by
  refine ((foretells_expression? h).then_pure (Present fun _ => True) ?_).mono
    ⟨fun _ stops => stops.1, fun _ stops => .inr stops, fun _ => id, id, fun _ => id⟩ rfl
  rintro _ ⟨value, rfl, -⟩
  exact ⟨_, rfl, trivial⟩

/-- A name alone is a field. -/
theorem completes_name (room : 3 ≤ n) {t : Token} (named : t.kind = .identifier)
    (whole : Word.IsWhole dialect t.spelling) :
    Completes dialect (ifNext (.text "=") (namedField (levels n)) (plainField (levels n))) [t]
      Conduct.field := by
  refine @Completes.of_goes _ _ _ _ _ [] .nil fun v rest stops => ?_
  obtain ⟨closes, noEquals⟩ := stops
  have same : t.spelling = (Identifier.ofToken t).word := congrArg (·, t.text) named
  have proper : IsLexeme dialect (Identifier.ofToken t).word := same ▸ whole.isLexeme
  have ofName := @goes_expression? _ _ rest _ _ (readsBack_of_suffixed rfl
    (readsBackSuffixed_name (.ofToken t))) proper (show 2 ≤ n by omega) closes
  have plain : Goes dialect (plainField (levels n)) (t.spelling :: v :: rest) (v :: rest)
      (Present fun _ => True) := by
    rw [same]
    refine ofName.bind ?_
    rintro _ ⟨read, rfl, -⟩
    exact goes_pure ⟨_, rfl, trivial⟩
  refine Goes.no (goes_nextMatchesAny ?_ fun _ => noEquals) plain
  exact @Word.isSome_of_kind _ .identifier named (by decide)

/-- A field that does not begin with a bracket. -/
def otherField (below : Below) : Parser (Option TableField) := do
  if ← isKey then namedField below else plainField below

theorem otherField_eq (below : Below) (c : Cursor) : otherField below c =
    (if c.current.kind = .identifier then ifNext (.text "=") (namedField below) (plainField below)
      else plainField below : Parser (Option TableField)) c := by
  rw [otherField, isKey, bind_assoc, current_bind]
  split
  · rfl
  · rfl

theorem foresees_otherField (h : ForeseesForms dialect viable below n) :
    Foresees dialect viable anywhere (otherField below) (otherField (levels n)) .field := by
  refine foresees_if (·.kind = .identifier)
    (fun _ => ifNext (.text "=") (namedField below) (plainField below))
    (fun _ => ifNext (.text "=") (namedField (levels n)) (plainField (levels n)))
    (otherField_eq below) (otherField_eq (levels n)) (fun t named => ?_)
    ((foretells_plainField h).foresees.from fun _ _ => trivial) (fun _ t stops => ?_)
  · refine (foresees_ifNext (inside_of_kind named (by decide)) (foresees_namedField h t)
      ((foretells_plainField h).foresees.from fun _ _ => trivial) named ?_ (fun u stops => stops.2)
      fun can whole => completes_name (h.enough can) named whole).mono
        ⟨fun _ => id, fun _ _ => .inl trivial, fun _ => id, fun _ => trivial, fun _ _ => trivial⟩
    intro c a e input here next run
    rw [namedField, current_bind] at run
    obtain ⟨_, d, passed, body⟩ := bind_ok.mp run
    obtain ⟨value, f, ofValue, result⟩ := bind_ok.mp body
    obtain ⟨-, rfl⟩ := pure_ok.mp result
    obtain ⟨⟨u, view⟩, input⟩ := passed_of_consumeNext input next passed
    obtain ⟨⟨tokens, -, passes⟩, -⟩ := reads_expression h.reads input ofValue
    simp only [view, passes.upcoming, List.length_cons, List.length_append]
    omega
  · exact Word.not_identifier stops.1

theorem foretells_field? (h : ForeseesForms dialect viable below n) :
    Foretells dialect viable (field? below) (field? (levels n)) .field where
  foresees := foresees_takes_bind (foretells_keyedField h) (foresees_otherField h)
    (fun _ stops => ⟨stops, .inl trivial⟩) (fun _ => id) fun _ _ stops =>
      (Word.isSuffix_eq_false.mp (Word.isSuffix_of_closes stops.2)).1
  feeds v := by
    have plain := (foretells_plainField h).feeds v
    have noKey (words : List Word) :
        Goes dialect isKey (Word.nilWord :: words) (Word.nilWord :: words) (· = false) :=
      goes_current fun _ => goes_pure rfl
    exact ⟨plain.proper, fun w rest stops =>
      (goes_takes_other rfl).no ((noKey _).no (plain.goes w rest stops))⟩

/-- The next field behind its separator, if one follows. -/
def nextField (below : Below) : Parser (Option TableField) := do
  if ← separator then field? below else return none

theorem nextField_eq (below : Below) (c : Cursor) : nextField below c =
    (if [Pattern.text ",", .text ";"].any (·.accepts c.current) then
      liftM Cursor.advance >>= fun _ => field? below else pure none : Parser (Option TableField)) c := by
  rw [nextField, separator, bind_assoc, get_bind, Cursor.matchesAny]
  split
  · rw [bind_assoc]
    rfl
  · rfl

def Conduct.nextField : Conduct (Option TableField) where
  after w := Conduct.field.after w ∧ Conduct.field.instead w
  instead w := w.isText "," = false ∧ w.isText ";" = false

/-- At the end of a table. -/
def Conduct.fields : Conduct (List TableField) where
  after w := w = Word.sign "\x7d"
  instead w := w = Word.sign "\x7d"

theorem foresees_nextField (h : ForeseesForms dialect viable below n) :
    Foresees dialect viable anywhere (nextField below) (nextField (levels n)) .nextField := by
  refine foresees_if (fun t => [Pattern.text ",", .text ";"].any (·.accepts t))
    (fun _ => liftM Cursor.advance >>= fun _ => field? below)
    (fun _ => liftM Cursor.advance >>= fun _ => field? (levels n))
    (nextField_eq below) (nextField_eq (levels n)) (fun t accepted => ?_)
    (foresees_pure none id fun _ _ => id) fun _ t stops => ?_
  · have more : t.isEnd = false := by
      simp only [List.any_cons, List.any_nil, Bool.or_false, Bool.or_eq_true] at accepted
      exact accepted.elim isEnd_of_accepts isEnd_of_accepts
    exact (foretells_field? h).passed more (fun _ stops => ⟨stops.1, .inr stops.2⟩)
      fun _ _ => trivial
  · have noComma : (Pattern.text ",").accepts t = false := stops.1
    have noSemicolon : (Pattern.text ";").accepts t = false := stops.2
    simp [noComma, noSemicolon]

theorem foretells_nextFields (h : ForeseesForms dialect viable below n) :
    Foretells dialect viable (many (nextField below)) (many (nextField (levels n))) .fields := by
  refine foretells_many _ (foresees_nextField h) ?_ ?_ (Likeness.shrinks_nextField h.reads)
    (Likeness.shrinks_nextField (reads_levels n)) ?_
  · rintro _ rfl
    exact ⟨⟨rfl, rfl⟩, rfl, rfl⟩
  · rintro _ rfl
    exact ⟨rfl, rfl⟩
  · rintro _ _ rest rfl
    exact goes_nextField_end (levels n)

theorem foretells_fields (h : ForeseesForms dialect viable below n) :
    Foretells dialect viable (fields below) (fields (levels n))
      { Conduct.fields with words := [Word.nilWord] } := by
  refine ((foretells_field? h).bind (l := .fields) (fun first => ?_) ?_).mono
    ⟨?_, ?_, fun _ => id, False.elim, fun _ => False.elim⟩ rfl
  · cases first with
    | some first => exact (foretells_nextFields h).then_pure _ fun _ _ => trivial
    | none =>
      have closing : Foretells dialect viable (pure ([] : List TableField)) (pure []) {} :=
        foretells_pure trivial
      exact closing.mono
        ⟨fun _ _ => trivial, fun _ _ => .inr trivial, fun _ => id, id, fun _ => id⟩ rfl
  · rintro _ ⟨rfl, -⟩
    exact ⟨rfl, rfl⟩
  · rintro _ rfl
    exact ⟨rfl, .inr ⟨⟨rfl, rfl⟩, rfl⟩⟩
  · rintro _ rfl
    exact .inr (.inr (.inr ⟨⟨rfl, rfl⟩, rfl⟩))

theorem foretells_table (h : ForeseesForms dialect viable below n) :
    Foretells dialect viable (Grammar.table below) (Grammar.table (levels n))
      (.enclosed [.sign "\x7b", Word.nilWord, .sign "\x7d"]) := by
  refine foretells_production _ ((foretells_sign "\x7b" (by decide)).then_enclosed
    (fun _ => (foretells_fields h).then_enclosed (fun values => ?_) fun _ => rfl) fun _ => trivial)
  exact (foretells_sign "\x7d" (by decide)).then_pure _ fun _ _ => trivial

end Tables

section Arguments

theorem feeds_arguments (below : Below) :
    Feeds dialect (Grammar.arguments below) Conduct.arguments := by
  refine ⟨.nil, fun w rest stops => goes_get fun c offers => ?_⟩
  rw [offers.hasText, if_pos (show w.isText ")" from stops)]
  exact goes_pure trivial

theorem foretells_arguments (h : ForeseesForms dialect viable below n) :
    Foretells dialect viable (Grammar.arguments below) (Grammar.arguments (levels n))
      .arguments where
  foresees := by
    have eq (below : Below) (c : Cursor) : Grammar.arguments below c =
        (if ¬ (Pattern.text ")").accepts c.current then expressionList below else pure [] :
          Parser (List Expression)) c := by
      rw [Grammar.arguments, get_bind, ite_not]
      rfl
    refine foresees_if (fun t => ¬ (Pattern.text ")").accepts t) (fun _ => expressionList below)
      (fun _ => expressionList (levels n)) (eq below) (eq (levels n)) (fun t _ => ?_)
      (foresees_pure [] id fun _ _ => id) fun _ t stops => not_not.mpr stops
    refine ((foretells_expressionList h).foresees.from fun _ _ => trivial).mono
      ⟨fun w stops => ?_, fun _ _ => .inl trivial, fun _ => id, fun _ => trivial, fun _ => False.elim⟩
    exact ⟨Word.isText_other stops (by decide), Word.closes_of_isText stops rfl⟩
  feeds _ := feeds_arguments (levels n)

/-- Arguments of a call. Nothing more has to be read to know that they are complete. -/
def Conduct.callArguments : Conduct (Option Arguments) where
  instead w := w.isText "(" = false ∧ w.isText "\x7b" = false ∧ w.1 ≠ .string
  good := Present fun _ => True
  words := [Word.emptyString]

/-- A string as the only argument. -/
def stringArgument? : Parser (Option Arguments) := do
  let token ← current
  if token.kind = .string then
    Cursor.advance
    return some (.string ⟨.string, token.text, token.span⟩)
  else return none

/-- Arguments that are not in parentheses. -/
def bareArguments? (below : Below) : Parser (Option Arguments) := do
  let token ← current
  if (Pattern.text "\x7b").accepts token then return some (.table (← below .table))
  else stringArgument?

theorem callArguments?_eq (below : Below) (c : Cursor) : callArguments? below c =
    (do
      if ← takes "(" then
        let values ← below .arguments
        expect ")"
        return some (.list values)
      else bareArguments? below : Parser (Option Arguments)) c := by
  rw [callArguments?, current_bind, takes, consume_bind, consume_bind]
  split
  · rfl
  · rw [if_neg Bool.false_ne_true, if_neg Bool.false_ne_true, get_bind, bareArguments?,
      current_bind, Cursor.hasText]
    split <;> rfl

theorem foresees_stringArgument? :
    Foresees dialect viable anywhere stringArgument? stringArgument? .callArguments := by
  refine foresees_if (·.kind = .string)
    (fun t => liftM Cursor.advance >>= fun _ => pure (some (.string ⟨.string, t.text, t.span⟩)))
    (fun t => liftM Cursor.advance >>= fun _ => pure (some (.string ⟨.string, t.text, t.span⟩)))
    (fun _ => rfl) (fun _ => rfl) (fun t string => ?_) (foresees_pure none id fun _ _ => id)
    fun _ t stops => stops.2.2
  have made : Foretells dialect viable
      (pure (some (.string ⟨.string, t.text, t.span⟩)) : Parser (Option Arguments))
      (pure (some (.string ⟨.string, t.text, t.span⟩))) { good := Present fun _ => True } :=
    foretells_pure ⟨_, rfl, trivial⟩
  exact made.passed (inside_of_kind string (by decide)) (fun _ _ => ⟨trivial, .inr trivial⟩)
    fun _ => id

theorem foresees_bareArguments? (h : ForeseesForms dialect viable below n) :
    Foresees dialect viable anywhere (bareArguments? below) (bareArguments? (levels n))
      .callArguments := by
  have table := h.table.then_pure (f := fun fields => some (Arguments.table fields))
    (Present fun _ => True) fun _ _ => ⟨_, rfl, trivial⟩
  refine foresees_if ((Pattern.text "\x7b").accepts ·)
    (fun _ => below .table >>= fun fields => pure (some (.table fields)))
    (fun _ => levels n .table >>= fun fields => pure (some (.table fields)))
    (fun _ => rfl) (fun _ => rfl) (fun t _ => ?_) (foresees_stringArgument?.from fun _ _ => trivial)
    fun _ t stops => Bool.eq_false_iff.mp stops.2.1
  exact (table.from fun _ _ => trivial).mono
    ⟨fun _ => id, fun _ _ => .inl trivial, fun _ => id, fun _ => trivial, fun _ => False.elim⟩

theorem goes_emptyString (n : Nat) (rest : List Word) :
    Goes dialect (callArguments? (levels n)) (Word.emptyString :: rest) rest
      (Present fun _ => True) := by
  refine goes_current fun start => (goes_takes_other rfl).no (goes_get fun c offers => ?_)
  rw [offers.hasText, show Word.emptyString.isText "\x7b" = false from rfl,
    if_neg Bool.false_ne_true, if_pos (show (Word.emptyString.token start).kind = .string from rfl)]
  exact (goes_advance rfl).bind fun _ _ => goes_pure ⟨_, rfl, trivial⟩

theorem foretells_callArguments? (h : ForeseesForms dialect viable below n) :
    Foretells dialect viable (callArguments? below) (callArguments? (levels n))
      .callArguments where
  foresees := by
    have list := h.arguments.then_enclosed (fun values =>
      (foretells_sign ")" (by decide)).then_pure (f := fun _ => some (Arguments.list values))
        (Present fun _ => True) fun _ _ => ⟨_, rfl, trivial⟩) fun _ => rfl
    refine Foresees.congr ?_ (fun c _ _ => callArguments?_eq below c)
      fun c _ _ => callArguments?_eq (levels n) c
    exact foresees_takes_bind list (foresees_bareArguments? h)
      (fun _ _ => ⟨trivial, .inl trivial⟩) (fun _ => id) fun _ _ stops => stops.1
  feeds _ := ⟨by simpa [Conduct.callArguments] using Word.isProper_emptyString,
    fun w rest _ => goes_emptyString n (w :: rest)⟩

end Arguments

section Suffixes

/-- What a name or a group may go on with. -/
def Conduct.suffix : Conduct (Option Expression) where
  instead w := w.isSuffix = false
  good := Present fun _ => True

theorem foresees_base? (h : ForeseesForms dialect viable below n) :
    Foresees dialect viable anywhere (base? below) (base? (levels n))
      { after := fun _ => True, instead := fun w => w.1 ≠ .identifier ∧ w.isText "(" = false,
        good := Present fun _ => True, enters := (·.kind = .identifier) } := by
  have name := (@foretells_identifier dialect viable).then_pure
    (f := fun id => some (Expression.name id)) (Present fun _ => True) fun _ _ => ⟨_, rfl, trivial⟩
  have group := (foretells_expression h).then_enclosed (fun inner =>
    (foretells_sign ")" (by decide)).then_pure (f := fun _ => some (Expression.group inner))
      (Present fun _ => True) fun _ _ => ⟨_, rfl, trivial⟩) fun _ => rfl
  refine foresees_if (·.kind = .identifier) (fun _ => identifier >>= fun id => pure (some (.name id)))
    (fun _ => identifier >>= fun id => pure (some (.name id))) (fun _ => rfl) (fun _ => rfl)
    (fun t _ => (name.foresees.from fun _ _ => trivial).mono ⟨fun _ => id, fun _ _ => .inl trivial,
      fun _ => id, id, fun _ => id⟩) ?_ fun _ t stops => stops.1
  exact foresees_takes_bind group (foresees_pure none id fun _ begins => begins.2)
    (fun _ _ => ⟨trivial, .inl trivial⟩) (fun _ => id) fun _ _ stops => stops.2

theorem foresees_suffix? (h : ForeseesForms dialect viable below n) (base : Expression) :
    Foresees dialect viable anywhere (suffix? below base) (suffix? (levels n) base) .suffix := by
  have index := (foretells_expression h).then_enclosed (fun key =>
    (foretells_sign "]" (by decide)).then_pure (f := fun _ => some (Expression.index base key))
      (Present fun _ => True) fun _ _ => ⟨_, rfl, trivial⟩) fun _ => rfl
  have member := (@foretells_identifier dialect viable).then_pure
    (f := fun field => some (base.member field)) (Present fun _ => True) fun _ _ => ⟨_, rfl, trivial⟩
  have called (method : Identifier) := (foretells_required .arguments
    (foretells_callArguments? h) (fun _ => id) (shrinks_callArguments? h.reads) (noneTakesNone_of_reads (reads_callArguments? h.reads))).then_pure
      (f := fun arguments => some (base.methodCall method arguments)) (Present fun _ => True)
        fun _ _ => ⟨_, rfl, trivial⟩
  have method := (@foretells_identifier dialect viable).bind called
    fun _ _ => trivial
  have call := (foretells_callArguments? h).foresees.then_pure (f := Option.map (Expression.call base))
    (Present fun _ => True) (by rintro _ ⟨arguments, rfl, -⟩; exact ⟨_, rfl, trivial⟩)
  refine foresees_takes_bind index ?_ (fun _ _ => ⟨trivial, .inl trivial⟩) (fun _ => id)
    fun _ _ stops => (Word.isSuffix_eq_false.mp stops).1
  refine foresees_takes_bind member ?_ (fun _ _ => ⟨trivial, .inl trivial⟩) (fun _ => id)
    fun _ _ stops => (Word.isSuffix_eq_false.mp stops).2.1
  refine foresees_takes_bind method (call.mono ?_) (fun _ _ => ⟨⟨trivial, .inl trivial⟩, .inl (.inl trivial)⟩) (fun _ => id)
    fun _ _ stops => (Word.isSuffix_eq_false.mp stops).2.2.1
  exact ⟨fun _ => id, fun _ stops => .inr (Word.isSuffix_eq_false.mp stops).2.2.2, fun _ => id, id, fun _ => id⟩

theorem suffixed_eq (below : Below) :
    suffixed below = production .suffixed (base? below >>= growing (suffix? below)) := by
  unfold suffixed
  congr
  funext base
  cases base <;> rfl

theorem foresees_grow_suffix (h : ForeseesForms dialect viable below n) (ending : Ending)
    (base : Expression) :
    Foresees dialect viable anywhere (grow (suffix? below) base) (grow (suffix? (levels n)) base)
      { after := fun w => w.isSuffix = false, instead := fun w => w.isSuffix = false,
        good := ending.good } :=
  foresees_grow (foresees_suffix? h) (fun _ _ => trivial) (fun _ => id)
    (shrinks_of_extends (extends_suffix? h.reads)) (shrinks_suffix? n)
    (noneTakesNone_of_extends (extends_suffix? h.reads)) (fun _ => id)
    (fun _ _ => ⟨ending.words, ending.proper, fun _ _ => trivial, fun e _ _ rest stops =>
      ending.goes n e rest stops⟩)
    (fun _ => ⟨ending.words, ending.proper, fun _ _ => trivial, fun e _ _ rest stops =>
      ending.goes n e rest stops⟩) base

theorem foresees_suffixed (h : ForeseesForms dialect viable below n) (ending : Ending) :
    Foresees dialect viable anywhere (suffixed below) (suffixed (levels n)) (.suffixed ending) := by
  rw [suffixed_eq, suffixed_eq]
  refine foresees_production _ ((foresees_growing (foresees_base? h)
    (foresees_grow_suffix h ending) (fun _ _ => trivial)
    (noneTakesNone_of_reads (reads_base? h.reads)) (fun _ => id) ending.proper
    (fun _ _ => trivial) fun _ e _ rest stops => ending.goes n e rest stops).mono
      ⟨fun _ => id, fun w stops => .inr ⟨⟨stops.1, ?_⟩, stops.2⟩, fun _ => id, False.elim, fun _ => id⟩)
        fun _ _ _ => trivial
  exact (Word.isSuffix_eq_false.mp stops.2).2.2.2.1

/-- What is read as a name or a group can be given any ending. -/
theorem completes_suffixed (h : ForeseesForms dialect viable below n) {c d : Cursor} {e : Expression}
    (ending : Ending) (legible : c.IsLegible dialect) (run : suffixed below c = .ok (some e) d) :
    ∃ taken : List Token, c.upcoming = taken.map .ok ++ d.upcoming ∧ taken ≠ [] ∧
      Completes dialect (suffixed (levels n)) taken (.suffixed ending) := by
  rw [suffixed_eq] at run ⊢
  obtain ⟨f, body, rfl⟩ := production_ok.mp run
  obtain ⟨base, g, ofBase, grows⟩ := bind_ok.mp body
  cases base with
  | none => cases grows
  | some base =>
    obtain ⟨built, k, grown, result⟩ := bind_ok.mp grows
    obtain ⟨-, rfl⟩ := pure_ok.mp result
    have inside := legible.record (.enter .suffixed)
    obtain ⟨first, took⟩ := (foresees_base? h).ok inside trivial ofBase
    have further := inside.behind took.upcoming took.dialect_eq
    obtain ⟨others, view, goesOn⟩ := grow_goes_on (foresees_suffix? h) (fun _ => trivial)
      (shrinks_of_extends (extends_suffix? h.reads)) (shrinks_suffix? n)
      (noneTakesNone_of_extends (extends_suffix? h.reads)) further grown
    have some : first ≠ [] :=
      taken_ne_nil_of_shrinks (shrinks_base? h.reads) inside.input ofBase took.upcoming
    refine ⟨first ++ others, ?_, by simp [some], Completes.production ⟨ending.words, ending.proper, ?_⟩⟩
    · change (c.record (.enter .suffixed)).upcoming = _
      rw [took.upcoming, view, List.map_append, List.append_assoc]
      rfl
    · intro i tokens v rest stops faces spelled
      obtain ⟨words, head⟩ := exists_cons_append ending.words v rest
      obtain ⟨t, behind, rfl, -, -⟩ := List.map_eq_cons_iff.mp (spelled.trans head)
      rw [List.append_assoc, List.map_append, List.map_append, List.map_cons] at faces
      obtain ⟨u, left, split⟩ := exists_first others t (behind.map .ok)
      obtain ⟨j, same, left⟩ := took.yields (split ▸ faces)
        (.inr ⟨fun none => absurd none some, fun _ => trivial⟩)
      obtain ⟨l, again, last⟩ := goesOn (split ▸ left)
      have offers : l.Offers dialect ((t :: behind).map (·.spelling)) := last.offers
      rw [spelled] at offers
      obtain ⟨whole, r, run, isGood, end'⟩ := ending.goes n built rest stops offers
      refine ⟨_, r, ?_, ⟨whole, rfl, isGood⟩, end'⟩
      rw [bind_eq_of_ok same, growing, bind_eq_of_ok (again.trans run)]
      rfl

end Suffixes

section Operands

/-- An operand that begins with no operator and is no literal. -/
def composite? (below : Below) : Parser (Option Expression) := do
  if ← takes "function" then return some (.function (← functionBody below))
  else if (← get).hasText "\x7b" then return some (.table (← below .table))
  else below .suffixed

theorem foresees_composite? (h : ForeseesForms dialect viable below n) :
    Foresees dialect viable anywhere (composite? below) (composite? (levels n)) .operand := by
  have function := (foretells_functionBody h).then_pure (f := fun body => some (Expression.function body))
    (Present fun _ => True) fun _ _ => ⟨_, rfl, trivial⟩
  have table := h.table.then_pure (f := fun fields => some (Expression.table fields))
    (Present fun _ => True) fun _ _ => ⟨_, rfl, trivial⟩
  refine foresees_takes_bind function ?_ (fun _ _ => ⟨trivial, .inl trivial⟩) (fun _ => id)
    fun _ w stops => (Word.beginsOperand_eq_false.mp stops.1).2.2.1
  refine foresees_if ((Pattern.text "\x7b").accepts ·)
    (fun _ => below .table >>= fun fields => pure (some (.table fields)))
    (fun _ => levels n .table >>= fun fields => pure (some (.table fields)))
    (fun _ => rfl) (fun _ => rfl) (fun t opens => ?_) ?_ fun _ t stops =>
      Bool.eq_false_iff.mp (Word.beginsOperand_eq_false.mp stops.1).2.2.2.1
  · have noName (c : Cursor) (here : at' t c) : ¬ c.current.kind = .identifier := by
      obtain rfl : c.current = t := here
      intro named
      simp [Pattern.accepts, named, Pattern.isFreelySpelled] at opens
    exact ((table.from fun _ _ => trivial).entering fun c here named =>
      absurd named (noName c here)).mono
        ⟨fun _ _ => trivial, fun _ _ => .inl trivial, fun _ => id, id, fun _ => id⟩
  · refine ((h.suffixed.foresees .plain).from fun _ _ => trivial).mono
      ⟨fun w => Word.isSuffix_of_closes, fun w stops => .inr ?_, fun _ => id, id, fun _ => id⟩
    exact ⟨Word.not_identifier stops.1, Word.isSuffix_of_closes stops.2⟩

/-- An operand that does not begin with an operator. -/
theorem foretells_primary? (h : ForeseesForms dialect viable below n) :
    Foretells dialect viable (primary? below) (primary? (levels n)) .operand := by
  refine foretells_production _ ⟨foresees_match Literal.ofToken?
    (fun value => liftM Cursor.advance >>= fun _ => pure (some (.literal value)))
    (fun value => liftM Cursor.advance >>= fun _ => pure (some (.literal value)))
    ?_ ?_ (fun t value found => ?_) ((foresees_composite? h).from fun _ _ => trivial)
    fun _ t stops => ?_, fun _ => ?_⟩
  · intro c
    rw [current_bind]
    cases Literal.ofToken? c.current <;> rfl
  · intro c
    rw [current_bind]
    cases Literal.ofToken? c.current <;> rfl
  · have made : Foretells dialect viable (pure (some (Expression.literal value)))
        (pure (some (.literal value))) { good := Present fun _ => True } :=
      foretells_pure ⟨_, rfl, trivial⟩
    exact made.passed (isEnd_of_literal found) (fun _ _ => ⟨trivial, .inr trivial⟩) fun _ => id
  · have kinds := (Word.beginsOperand_eq_false.mp stops.1).1
    change t.kind ∉ _ at kinds
    unfold Literal.ofToken?
    split <;> simp_all
  · refine ⟨by simpa [Conduct.operand] using Word.isProper_nilWord, fun w rest _ => ?_⟩
    exact goes_current fun start => (goes_advance rfl).bind fun _ _ => goes_pure ⟨_, rfl, trivial⟩

/-- The operand of an operator. -/
theorem foretells_requiredOperand (h : ForeseesForms dialect viable below n) (limit : Nat) :
    Foretells dialect viable (required .expression (below (.operand limit)))
      (required .expression (levels n (.operand limit))) .expression :=
  foretells_required .expression (h.operand limit) (fun _ => id) (shrinks_operand h.reads limit)
    (noneTakesNone_of_reads (h.reads (.operand limit)))

theorem foretells_prefixed? (h : ForeseesForms dialect viable below n) :
    Foretells dialect viable (prefixed? below) (prefixed? (levels n)) .operand := by
  have primary := foretells_primary? h
  refine ⟨foresees_match unaryOperator?
    (fun operator => liftM Cursor.advance >>= fun _ => (do
      let operand ← required .expression (below (.operand UnaryOperator.precedence))
      return some (.unary operator operand)))
    (fun operator => liftM Cursor.advance >>= fun _ => (do
      let operand ← required .expression (levels n (.operand UnaryOperator.precedence))
      return some (.unary operator operand)))
    ?_ ?_ (fun t operator found => ?_) (primary.foresees.from fun _ _ => trivial)
    fun _ t stops => ?_, fun v => ⟨(primary.feeds v).proper, fun w rest stops => ?_⟩⟩
  · intro c
    rw [prefixed?, current_bind]
    cases unaryOperator? c.current <;> rfl
  · intro c
    rw [prefixed?, current_bind]
    cases unaryOperator? c.current <;> rfl
  · have made := (foretells_requiredOperand h UnaryOperator.precedence).then_pure
      (f := fun operand => some (Expression.unary operator operand)) (Present fun _ => True)
      fun _ _ => ⟨_, rfl, trivial⟩
    exact made.passed (isEnd_of_accepts (accepts_of_unaryOperator? found))
      (fun _ stops => ⟨stops, .inl trivial⟩) fun _ => id
  · exact (Word.beginsOperand_eq_false.mp stops.1).2.1
  · exact goes_prefixed?_of_primary rfl ((primary.feeds v).goes w rest stops)

/-- The operator that goes on with an operand that reaches to the limit. -/
def tighter? (limit : Nat) (t : Token) : Option BinaryOperator :=
  (binaryOperator? t).filter (limit < ·.precedence)

theorem joined?_eq (below : Below) (limit : Nat) (left : Expression) (c : Cursor) :
    joined? below limit left c = (tighter? limit c.current).elim (pure none) (fun operator =>
      (liftM Cursor.advance >>= fun _ => (do
        let right ← required .expression (below (.operand operator.rightLimit))
        return some (.binary operator left right)) : Parser (Option Expression))) c := by
  rw [joined?, current_bind, tighter?]
  cases binaryOperator? c.current with
  | none => rfl
  | some operator =>
    by_cases loose : operator.precedence ≤ limit
    · simp only [if_pos loose, Option.filter_some, decide_eq_true_eq,
        if_neg (Nat.not_lt_of_le loose), Option.elim]
    · simp only [if_neg loose, Option.filter_some, decide_eq_true_eq,
        if_pos (Nat.lt_of_not_le loose), Option.elim]

theorem foresees_joined? (h : ForeseesForms dialect viable below n) (limit : Nat)
    (left : Expression) :
    Foresees dialect viable anywhere (joined? below limit left) (joined? (levels n) limit left)
      { after := fun w => w.closes, instead := fun w => w.closes, good := Present fun _ => True } := by
  refine foresees_match (tighter? limit) _ _ (joined?_eq below limit left)
    (joined?_eq (levels n) limit left) (fun t operator found => ?_)
    (foresees_pure none id fun _ _ => id) fun _ t stops => ?_
  · have found : binaryOperator? t = some operator := (Option.filter_eq_some_iff.mp found).1
    have made := (foretells_requiredOperand h operator.rightLimit).then_pure
      (f := fun right => some (Expression.binary operator left right)) (Present fun _ => True)
      fun _ _ => ⟨_, rfl, trivial⟩
    exact made.passed (isEnd_of_accepts (accepts_of_binaryOperator? found))
      (fun _ stops => ⟨stops, .inl trivial⟩) fun _ => id
  · have none : binaryOperator? t = none := Word.binary?_of_closes stops
    rw [tighter?, none]
    rfl

theorem operand_eq (below : Below) (limit : Nat) :
    operand below limit = prefixed? below >>= growing (joined? below limit) := by
  unfold operand
  congr
  funext left
  cases left <;> rfl

theorem foretells_operand (h : ForeseesForms dialect viable below n) (limit : Nat) :
    Foretells dialect viable (operand below limit) (operand (levels n) limit) .operand := by
  rw [operand_eq, operand_eq]
  have shrinks := shrinks_of_extends (extends_joined? h.reads limit)
  have ended (e : Expression) (w : Word) (rest : List Word) (stops : w.closes) :
      Goes dialect (grow (joined? (levels n) limit) e) (w :: rest) (w :: rest) fun _ => True :=
    goes_grow_end (shrinks_joined? n limit) trivial
      (goes_joined?_end _ _ (by simp [Word.binary?_of_closes stops]))
  have stopped (those : Expression → Prop) : Continues dialect (grow (joined? (levels n) limit))
      those [] (fun w => w.closes) { after := fun w => w.closes } :=
    ⟨.nil, fun _ => id, fun e _ w rest stops => ended e w rest stops⟩
  have grows (e : Expression) : Foresees dialect viable anywhere (grow (joined? below limit) e)
      (grow (joined? (levels n) limit) e)
      { after := fun w => w.closes, instead := fun w => w.closes } :=
    foresees_grow (foresees_joined? h limit) (fun _ => id) (fun _ => id) shrinks
      (shrinks_joined? n limit) (noneTakesNone_of_extends (extends_joined? h.reads limit))
      (fun _ => id) (fun _ _ => ⟨[], stopped _⟩) (fun _ => ⟨[], stopped _⟩) e
  have first := foretells_prefixed? h
  refine ⟨(foresees_growing first.foresees grows (fun _ => id)
    (noneTakesNone_of_reads (reads_prefixed? h.reads)) (fun _ => id) .nil (fun _ => id)
    fun _ e w rest stops => ended e w rest stops).mono
      ⟨fun _ => id, fun _ stops => .inr ⟨stops, stops.2⟩, fun _ => id, id, fun _ => id⟩,
    fun v => ⟨(first.feeds v).proper, fun w rest stops =>
      ((first.feeds v).goes w rest stops).bind ?_⟩⟩
  rintro _ ⟨e, rfl, -⟩
  exact (ended e w rest stops).bind fun whole _ => goes_pure ⟨_, rfl, trivial⟩

end Operands

end LuaFrontend
