import LuaFrontend.Lexeme.Read

set_option autoImplicit false

namespace LuaFrontend.Lexeme

variable {gap : Char}

namespace Part

/-- The part with more text behind it. -/
def append (p : Part) (tail : List Char) : Part := { p with rest := p.rest ++ tail }

@[simp] theorem taken_append (p : Part) (tail : List Char) : (p.append tail).taken = p.taken := rfl

@[simp] theorem rest_append (p : Part) (tail : List Char) :
    (p.append tail).rest = p.rest ++ tail := rfl

theorem andThen_of_complete {p : Part} (h : p.complete) (next : List Char → Part) :
    p.andThen next = (next p.rest).push p.taken :=
  if_pos h

theorem complete_andThen {p : Part} {next : List Char → Part} (h : (p.andThen next).complete) :
    p.complete ∧ (next p.rest).complete := by
  unfold andThen at h
  split at h
  · next whole => exact ⟨whole, h⟩
  · next broken => exact absurd h broken

end Part

/-- Where the recognizer takes something whole, a gap behind the text and whatever follows it do not
change what is taken. -/
def Ignores (gap : Char) (recognize : List Char → Part) : Prop :=
  ∀ s behind, (recognize s).complete →
    recognize (s ++ gap :: behind) = (recognize s).append (gap :: behind)

theorem takeWhile_append_gap {test : Char → Bool} (stops : test gap = false)
    (s behind : List Char) : (s ++ gap :: behind).takeWhile test = s.takeWhile test := by
  induction s with
  | nil => simp [stops]
  | cons c s ih => by_cases h : test c <;> simp [h, ih]

theorem dropWhile_append_gap {test : Char → Bool} (stops : test gap = false)
    (s behind : List Char) :
    (s ++ gap :: behind).dropWhile test = s.dropWhile test ++ gap :: behind := by
  induction s with
  | nil => simp [stops]
  | cons c s ih => by_cases h : test c <;> simp [h, ih]

/-- What does not hold the gap cannot begin in the text and end behind it. -/
theorem isPrefixOf_append_gap {word : List Char} (h : gap ∉ word) (s behind : List Char) :
    word.isPrefixOf (s ++ gap :: behind) = word.isPrefixOf s := by
  induction word generalizing s with
  | nil => rfl
  | cons c word ih =>
    have other : c ≠ gap := fun same => h (same ▸ List.mem_cons_self)
    cases s with
    | nil => simp [List.isPrefixOf, other]
    | cons d s => simp [List.isPrefixOf, ih fun member => h (List.mem_cons_of_mem c member)]

namespace Ignores

variable {first second : List Char → Part}

theorem run {test : Char → Bool} (stops : test gap = false) : Ignores gap (Part.run test) := by
  intro s behind _
  simp only [Part.run, takeWhile_append_gap stops, dropWhile_append_gap stops,
    Part.append]

theorem optional {test : Char → Bool} (stops : test gap = false) :
    Ignores gap (Part.optional test) := by
  intro s behind _
  cases s with
  | nil => simp [Part.optional, stops, Part.nothing, Part.append]
  | cons c s => by_cases h : test c <;> simp [Part.optional, h, Part.nothing, Part.append]

/-- What is read second may depend on what was taken first. -/
theorem andThenOf (h : Ignores gap first) (next : List Char → List Char → Part)
    (g : ∀ taken, Ignores gap (next taken)) :
    Ignores gap fun s => (first s).andThen (next (first s).taken) := by
  intro s behind whole
  obtain ⟨ofFirst, ofSecond⟩ := Part.complete_andThen whole
  have same := h s behind ofFirst
  have rest := g (first s).taken (first s).rest behind ofSecond
  simp only [same, Part.andThen_of_complete ofFirst]
  rw [Part.andThen_of_complete (by exact ofFirst), Part.rest_append, Part.taken_append, rest]
  rfl

theorem andThen (h : Ignores gap first) (g : Ignores gap second) :
    Ignores gap fun s => (first s).andThen second :=
  h.andThenOf (fun _ => second) fun _ => g

end Ignores

theorem complete_optional (test : Char → Bool) (s : List Char) :
    (Part.optional test s).complete := by
  cases s with
  | nil => rfl
  | cons c s => by_cases h : test c <;> simp [Part.optional, h, Part.nothing]

theorem complete_require {p : Part} {condition : Bool} (h : (p.require condition).complete) :
    p.complete ∧ condition := by
  simpa [Part.require] using h

theorem ignores_mantissa (space : isSpace gap) {radix : Radix} (stops : radix.isDigit gap = false) :
    Ignores gap (mantissa radix) := by
  have digits : Ignores gap fun s => ((Part.run radix.isDigit s).andThen
      (Part.optional isPoint)).andThen (Part.run radix.isDigit) :=
    ((Ignores.run stops).andThen (.optional (eq_false_of_isSpace space rfl))).andThen (.run stops)
  intro s behind whole
  have same := digits s behind (complete_require whole).1
  simp only [mantissa, same]
  rfl

theorem ignores_noPoint (space : isSpace gap) : Ignores gap noPoint := by
  intro s behind whole
  have stops : isPoint gap = false := eq_false_of_isSpace space rfl
  have same := Ignores.optional stops s behind (complete_require whole).1
  simp only [noPoint, same]
  rfl

theorem ignores_someDigits (space : isSpace gap) : Ignores gap someDigits := by
  intro s behind whole
  have stops : isDigit gap = false := eq_false_of_isSpace space rfl
  have same := Ignores.run stops s behind (complete_require whole).1
  simp only [someDigits, same]
  rfl

theorem ignores_power (space : isSpace gap) {radix : Radix}
    (stops : radix.isExponentMark gap = false) :
    Ignores gap (power radix) := by
  have powers : Ignores gap fun s => (((Part.optional radix.isExponentMark s).andThen
      (Part.optional isSign)).andThen someDigits).andThen noPoint :=
    (((Ignores.optional stops).andThen (.optional (eq_false_of_isSpace space rfl))).andThen
      (ignores_someDigits space)).andThen (ignores_noPoint space)
  intro s behind whole
  have mark : Part.optional radix.isExponentMark (s ++ gap :: behind) =
      (Part.optional radix.isExponentMark s).append (gap :: behind) :=
    Ignores.optional stops s behind (complete_optional _ s)
  simp only [power] at whole ⊢
  by_cases none : (Part.optional radix.isExponentMark s).taken.isEmpty
  · simp only [mark, Part.taken_append, none, if_true]
  · rw [if_neg none] at whole
    have same := powers s behind whole
    rw [mark, Part.taken_append, if_neg none, if_neg none, ← mark]
    exact same

theorem ignores_exponent (space : isSpace gap) {radix : Radix}
    (stops : radix.isExponentMark gap = false) :
    Ignores gap (exponent radix) :=
  (ignores_noPoint space).andThen (ignores_power space stops)

theorem ignores_imaginaryUnit (space : isSpace gap) (dialect : Dialect) :
    Ignores gap (imaginaryUnit dialect) := by
  intro s behind _
  unfold imaginaryUnit
  split
  · exact Ignores.optional (eq_false_of_isSpace space rfl) s behind (complete_optional _ s)
  · rfl

theorem ignores_longMark (space : isSpace gap) : Ignores gap longMark := by
  have stops : isLongMark gap = false := eq_false_of_isSpace space rfl
  have second : Ignores gap fun s => (Part.optional isLongMark s).require
      !(Part.optional isLongMark s).taken.isEmpty := by
    intro s behind _
    have same := Ignores.optional stops s behind
      (complete_optional _ s)
    simp only [same]
    rfl
  intro s behind whole
  have first := Ignores.optional stops s behind
    (complete_optional _ s)
  simp only [longMark] at whole ⊢
  by_cases none : (Part.optional isLongMark s).taken.isEmpty
  · simp only [first, Part.taken_append, none, if_true]
  · rw [if_neg none] at whole
    have both := (Ignores.optional stops).andThen second
      s behind whole
    rw [first, Part.taken_append, if_neg none, if_neg none, ← first]
    exact both

theorem ignores_integerSuffix (space : isSpace gap) (dialect : Dialect) :
    Ignores gap (integerSuffix dialect) := by
  intro s behind whole
  unfold integerSuffix at whole ⊢
  split
  · next on =>
    rw [if_pos on] at whole
    have mark := Ignores.optional (eq_false_of_isSpace space rfl : isUnsignedMark gap = false)
    exact mark.andThen (ignores_longMark space) s behind whole
  · rfl

theorem ignores_numberIn (space : isSpace gap) (dialect : Dialect) {radix : Radix}
    (digit : radix.isDigit gap = false) (mark : radix.isExponentMark gap = false) :
    Ignores gap (numberIn dialect radix) := by
  have suffix (isInteger : Bool) : Ignores gap fun s => (integerSuffix dialect s).require
      ((integerSuffix dialect s).taken.isEmpty || isInteger) := by
    intro s behind whole
    have same := ignores_integerSuffix space dialect s behind (complete_require whole).1
    simp only [same]
    rfl
  exact (ignores_mantissa space digit).andThenOf _ fun digits =>
    (ignores_exponent space mark).andThenOf _ fun exponent =>
      (ignores_imaginaryUnit space dialect).andThenOf _ fun unit =>
        suffix (!digits.any isPoint && exponent.isEmpty && unit.isEmpty)

theorem number_of_decimal {dialect : Dialect} {s : List Char}
    (h : ∀ mark rest, s = '0' :: mark :: rest → isHexMark mark = false) :
    number dialect s = numberIn dialect .decimal s := by
  unfold number
  split
  · next mark rest => rw [h mark rest rfl, if_neg Bool.false_ne_true]
  · rfl

theorem number_of_hexadecimal {dialect : Dialect} {mark : Char} (h : isHexMark mark)
    (s : List Char) :
    number dialect ('0' :: mark :: s) = (numberIn dialect .hexadecimal s).push ['0', mark] := by
  simp only [number, h, if_true]

/-- The radix of a number shows in its first two characters. -/
theorem hexadecimal_or_decimal (s : List Char) :
    (∃ mark rest, isHexMark mark ∧ s = '0' :: mark :: rest) ∨
      ∀ mark rest, s = '0' :: mark :: rest → isHexMark mark = false := by
  by_cases hex : ∃ mark rest, isHexMark mark ∧ s = '0' :: mark :: rest
  · exact .inl hex
  · exact .inr fun mark rest same =>
      Bool.eq_false_iff.mpr fun isMark => hex ⟨mark, rest, isMark, same⟩

theorem ignores_number (space : isSpace gap) (dialect : Dialect) :
    Ignores gap (number dialect) := by
  have decimal : Ignores gap (numberIn dialect .decimal) :=
    ignores_numberIn space dialect (eq_false_of_isSpace space rfl) (eq_false_of_isSpace space rfl)
  have hexadecimal : Ignores gap (numberIn dialect .hexadecimal) :=
    ignores_numberIn space dialect (eq_false_of_isSpace space rfl) (eq_false_of_isSpace space rfl)
  intro s behind whole
  rcases hexadecimal_or_decimal s with ⟨mark, rest, isMark, rfl⟩ | first
  · simp only [List.cons_append, number_of_hexadecimal isMark] at whole ⊢
    rw [hexadecimal rest behind whole]
    rfl
  · have second : ∀ mark rest, s ++ gap :: behind = '0' :: mark :: rest →
        isHexMark mark = false := by
      intro mark rest same
      match s with
      | [] =>
        cases same
        cases (eq_false_of_isSpace space rfl : isDigit '0' = false)
      | [c] =>
        cases same
        exact eq_false_of_isSpace space rfl
      | c :: d :: s =>
        cases same
        exact first mark s rfl
    rw [number_of_decimal first] at whole ⊢
    rw [number_of_decimal second]
    exact decimal s behind whole

theorem quotedRest_cons (quote : Char) (skipping : Bool) (c : Char) (s : List Char) :
    quotedRest quote skipping (c :: s) =
      if skipping && isSpace c then (quotedRest quote true s).push [c]
      else if isLineBreak c then .missing (c :: s)
      else if c == quote then ⟨[c], s, true⟩
      else if c == '\\' then
        match s with
        | [] => ⟨[c], [], false⟩
        | [a] => ⟨[c, a], [], false⟩
        | a :: b :: s =>
          if isBreakPair a b then (quotedRest quote false s).push [c, a, b]
          else (quotedRest quote (a == 'z') (b :: s)).push [c, a]
      else (quotedRest quote false s).push [c] :=
  quotedRest.eq_def quote skipping (c :: s)

theorem ignores_quotedRest (quote : Char) (skipping : Bool) :
    Ignores gap (quotedRest quote skipping) := by
  intro s behind whole
  fun_induction quotedRest quote skipping s with
  | case1 => cases whole
  | case2 _ c s space ih =>
    rw [List.cons_append, quotedRest_cons, if_pos space, ih whole]
    rfl
  | case3 => cases whole
  | case4 _ c s space other same =>
    rw [List.cons_append, quotedRest_cons, if_neg space, if_neg other, if_pos same]
    rfl
  | case5 => cases whole
  | case6 => cases whole
  | case7 _ c space other quote escape a b s pair ih =>
    rw [List.cons_append, List.cons_append, List.cons_append, quotedRest_cons, if_neg space,
      if_neg other, if_neg quote, if_pos escape]
    simp only [pair, if_true]
    rw [ih whole]
    rfl
  | case8 _ c space other quote escape a b s single ih =>
    rw [List.cons_append, List.cons_append, List.cons_append, quotedRest_cons, if_neg space,
      if_neg other, if_neg quote, if_pos escape]
    simp only [single]
    rw [← List.cons_append, ih whole]
    rfl
  | case9 _ c s space other quote escape ih =>
    rw [List.cons_append, quotedRest_cons, if_neg space, if_neg other, if_neg quote,
      if_neg escape, ih whole]
    rfl

theorem ignores_quoted : Ignores gap quoted := by
  intro s behind whole
  cases s with
  | nil => cases whole
  | cons quote s =>
    rw [List.cons_append, quoted, ignores_quotedRest quote false s behind whole]
    rfl

theorem ignores_through {close : List Char} (h : gap ∉ close) : Ignores gap (through close) := by
  intro s behind whole
  induction s with
  | nil => cases whole
  | cons c s ih =>
    have same := isPrefixOf_append_gap h (c :: s) behind
    rw [List.cons_append] at same ⊢
    rw [through, same]
    rw [through] at whole ⊢
    by_cases closes : close.isPrefixOf (c :: s)
    · have fits := (List.isPrefixOf_iff_prefix.mp closes).length_le
      rw [if_pos closes, if_pos closes, ← List.cons_append, List.take_append_of_le_length fits,
        List.drop_append_of_le_length fits]
      rfl
    · rw [if_neg closes] at whole
      rw [if_neg closes, if_neg closes, ih whole]
      rfl

theorem gap_notMem_closing (space : isSpace gap) (level : Nat) : gap ∉ closing level := by
  have noBracket : gap ≠ ']' := ne_of_isSpace space rfl
  have noSign : gap ≠ '=' := ne_of_isSpace space rfl
  simp [closing, List.mem_replicate, noBracket, noSign]

/-- Where a long bracket opens, there is room for its opening. -/
theorem length_opening_le {s : List Char} {level : Nat} (h : openingLevel? s = some level) :
    (opening level).length ≤ s.length := by
  unfold openingLevel? at h
  split at h
  · next t =>
    split at h
    · next u found =>
      obtain rfl := Option.some.inj h
      have whole := congrArg List.length (List.takeWhile_append_dropWhile
        (p := isEqualsSign) (l := t))
      rw [found] at whole
      simp only [opening, List.length_append, List.length_cons, List.length_replicate,
        List.length_nil] at whole ⊢
      omega
    · cases h
  · cases h

theorem openingLevel?_append (space : isSpace gap) (s behind : List Char) :
    openingLevel? (s ++ gap :: behind) = openingLevel? s := by
  have noBracket : gap ≠ '[' := ne_of_isSpace space rfl
  have noSign : isEqualsSign gap = false := eq_false_of_isSpace space rfl
  match s with
  | [] => simp [openingLevel?, noBracket]
  | c :: s =>
    by_cases bracket : c = '['
    · subst bracket
      simp only [List.cons_append, openingLevel?, dropWhile_append_gap noSign,
        takeWhile_append_gap noSign]
      cases s.dropWhile isEqualsSign with
      | nil => simp [noBracket]
      | cons d t =>
        by_cases inner : d = '['
        · subst inner
          rfl
        · simp [inner]
    · simp [openingLevel?, bracket]

theorem ignores_bracketed (space : isSpace gap) {s : List Char} {level : Nat}
    (h : openingLevel? s = some level) (behind : List Char) (whole : (bracketed level s).complete) :
    bracketed level (s ++ gap :: behind) = (bracketed level s).append (gap :: behind) := by
  have fits := length_opening_le h
  have same := ignores_through (gap_notMem_closing space level) (s.drop (opening level).length)
    behind whole
  simp only [bracketed, List.take_append_of_le_length fits, List.drop_append_of_le_length fits,
    same]
  rfl

theorem ignores_lineComment (ends : isLineBreak gap) : Ignores gap lineComment :=
  Ignores.run (by rw [ends, Bool.not_true])

/-- The lexeme with more text behind it. -/
def Reading.append (r : Reading) (tail : List Char) : Reading := { r with rest := r.rest ++ tail }

theorem ofPart_ok {p : Part} {kind k : TokenKind} {fault : Fault}
    (ok : (Reading.ofPart p kind fault).outcome = .ok k) : p.complete ∧ k = kind := by
  simp only [Reading.ofPart] at ok
  split at ok
  · next whole => exact ⟨whole, (Except.ok.inj ok).symm⟩
  · cases ok

theorem ofPart_append {recognize : List Char → Part} (h : Ignores gap recognize) {s : List Char}
    {kind k : TokenKind} {fault : Fault} (behind : List Char)
    (ok : (Reading.ofPart (recognize s) kind fault).outcome = .ok k) :
    Reading.ofPart (recognize (s ++ gap :: behind)) kind fault =
      (Reading.ofPart (recognize s) kind fault).append (gap :: behind) := by
  rw [h s behind (ofPart_ok ok).1]
  rfl

theorem start_append (space : isSpace gap) (dialect : Dialect) {s : List Char} (some : s ≠ [])
    (behind : List Char) : start dialect (s ++ gap :: behind) = start dialect s := by
  have digit : isDigit gap = false := eq_false_of_isSpace space rfl
  have noDash : gap ≠ '-' := ne_of_isSpace space rfl
  have noBracket : gap ≠ '[' := ne_of_isSpace space rfl
  have noSign : gap ≠ '=' := ne_of_isSpace space rfl
  match s with
  | [c] => simp [start, digit, noDash, noBracket, noSign]
  | c :: d :: s => rfl

theorem isNamePart_gap (space : isSpace gap) (extended : Bool) :
    isNamePart extended gap = false := by
  cases extended <;> exact eq_false_of_isSpace space rfl

theorem readName_append (space : isSpace gap) (dialect : Dialect) (s behind : List Char) :
    readName dialect (s ++ gap :: behind) = (readName dialect s).append (gap :: behind) := by
  have stops := isNamePart_gap space dialect.extendedIdentifiers
  simp only [readName, takeWhile_append_gap stops, dropWhile_append_gap stops]
  rfl

theorem readComment_append (ends : isLineBreak gap) {s : List Char} {kind : TokenKind}
    (ok : (readComment s).outcome = .ok kind) (behind : List Char) :
    readComment (s ++ gap :: behind) = (readComment s).append (gap :: behind) := by
  have space : isSpace gap := by rw [isSpace, ends, Bool.or_true]
  have whole := (ofPart_ok ok).1
  simp only [readComment, openingLevel?_append space] at whole ⊢
  cases level : openingLevel? s with
  | some level' =>
    simp only [level] at whole ⊢
    rw [ignores_bracketed space level behind whole]
    rfl
  | none =>
    simp only [ignores_lineComment ends s behind rfl]
    rfl

theorem readLongString_append (space : isSpace gap) {s : List Char} {kind : TokenKind}
    (ok : (readLongString s).outcome = .ok kind) (behind : List Char) :
    readLongString (s ++ gap :: behind) = (readLongString s).append (gap :: behind) := by
  simp only [readLongString, openingLevel?_append space] at ok ⊢
  cases level : openingLevel? s with
  | some level' =>
    simp only [level] at ok ⊢
    rw [ignores_bracketed space level behind (ofPart_ok ok).1]
    rfl
  | none =>
    simp only [level] at ok
    have whole := (ofPart_ok ok).1
    cases s with
    | nil => cases whole
    | cons c s => simp [brokenOpening, Part.require] at whole

theorem gap_notMem_symbols (space : isSpace gap) (dialect : Dialect) {symbol : List Char}
    (h : symbol ∈ symbols dialect) : gap ∉ symbol := by
  have flags : ∀ l i b : Bool, ∀ symbol ∈ symbols ⟨l, false, i, b, false, false, false⟩,
      symbol.all (!isSpace ·) := by decide
  intro member
  have other := flags dialect.labels dialect.integerDivision dialect.bitwiseOperators symbol h
  have none := List.all_eq_true.mp other gap member
  rw [space] at none
  cases none

theorem symbol?_append (space : isSpace gap) (dialect : Dialect) (s behind : List Char) :
    symbol? dialect (s ++ gap :: behind) = symbol? dialect s := by
  unfold symbol?
  have clean : ∀ symbol ∈ symbols dialect, gap ∉ symbol := fun _ =>
    gap_notMem_symbols space dialect
  generalize symbols dialect = all at clean
  induction all with
  | nil => rfl
  | cons symbol all ih =>
    rw [List.find?_cons, List.find?_cons,
      isPrefixOf_append_gap (clean symbol List.mem_cons_self),
      ih fun other member => clean other (List.mem_cons_of_mem symbol member)]

theorem readSymbol_append (space : isSpace gap) (dialect : Dialect) {s : List Char} (some : s ≠ [])
    (behind : List Char) :
    readSymbol dialect (s ++ gap :: behind) = (readSymbol dialect s).append (gap :: behind) := by
  obtain ⟨c, s, rfl⟩ := List.exists_cons_of_ne_nil some
  have same := symbol?_append space dialect (c :: s) behind
  rw [List.cons_append] at same ⊢
  simp only [readSymbol, same]
  cases found : symbol? dialect (c :: s) with
  | none => rfl
  | some symbol =>
    unfold symbol? at found
    have front := List.find?_some found
    have fits := (List.isPrefixOf_iff_prefix.mp front).length_le
    simp only [Reading.append]
    rw [← List.cons_append, List.drop_append_of_le_length fits]

/-- A token is read the same whatever is written behind white space, which must be a line break if
the token is a comment. -/
theorem read_append_gap (space : isSpace gap) (dialect : Dialect) {s : List Char} {kind : TokenKind}
    (some : s ≠ []) (ok : (read dialect s).outcome = .ok kind)
    (ends : isLineBreak gap ∨ kind ≠ .comment) (behind : List Char) :
    read dialect (s ++ gap :: behind) = (read dialect s).append (gap :: behind) := by
  unfold read at ok ⊢
  rw [start_append space dialect some]
  cases begins : start dialect s with
  | name => exact readName_append space dialect s behind
  | quote =>
    rw [begins] at ok
    exact ofPart_append ignores_quoted behind ok
  | number =>
    rw [begins] at ok
    exact ofPart_append (ignores_number space dialect) behind ok
  | comment =>
    rw [begins] at ok
    have dashes := eq_of_start_comment begins
    have fits : 2 ≤ s.length := by
      rw [dashes]
      simp
    have breaks := ends.resolve_right (not_not_intro (ofPart_ok ok).2)
    simp only [List.drop_append_of_le_length fits]
    exact readComment_append breaks ok behind
  | longBracket =>
    rw [begins] at ok
    exact readLongString_append space ok behind
  | symbol => exact readSymbol_append space dialect some behind

end LuaFrontend.Lexeme
