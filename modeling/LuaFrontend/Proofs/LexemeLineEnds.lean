import LuaFrontend.Proofs.LexemeJoin
import LuaFrontend.Proofs.LineEnds
import Mathlib.Data.List.TakeWhile

set_option autoImplicit false

namespace LuaFrontend.Lexeme

/-- No line break is of the class. -/
def IsInline (test : Char → Bool) : Prop := test '\n' = false ∧ test '\r' = false

theorem IsInline.eq_false {test : Char → Bool} (h : IsInline test) {c : Char} (passes : test c) :
    isLineBreak c = false := by
  cases breaks : isLineBreak c with
  | false => rfl
  | true =>
    simp only [isLineBreak, Bool.or_eq_true, beq_iff_eq] at breaks
    rcases breaks with rfl | rfl
    · rw [h.1] at passes
      contradiction
    · rw [h.2] at passes
      contradiction

namespace Part

/-- What was taken holds no line break. -/
def StaysOnLine (p : Part) : Prop := ∀ c ∈ p.taken, isLineBreak c = false

/-- What was taken ends outside every pair. -/
def EndsClean (p : Part) : Prop := CutsClean p.taken p.rest

theorem StaysOnLine.endsClean {p : Part} (h : p.StaysOnLine) : p.EndsClean := .of_forall h _

theorem staysOnLine_nothing (s : List Char) : (nothing s).StaysOnLine := by
  intro c inside
  simp [nothing] at inside

theorem staysOnLine_run {test : Char → Bool} (h : IsInline test) (s : List Char) :
    (run test s).StaysOnLine :=
  fun _ inside => h.eq_false (List.mem_takeWhile_imp inside)

theorem staysOnLine_optional {test : Char → Bool} (h : IsInline test) (s : List Char) :
    (optional test s).StaysOnLine := by
  cases s with
  | nil => exact staysOnLine_nothing []
  | cons c s =>
    by_cases passes : test c
    · intro d inside
      simp only [optional, passes, ↓reduceIte, List.mem_singleton] at inside
      subst inside
      exact h.eq_false passes
    · simp only [optional, passes, Bool.false_eq_true, ↓reduceIte]
      exact staysOnLine_nothing _

theorem StaysOnLine.require {p : Part} (h : p.StaysOnLine) (condition : Bool) :
    (p.require condition).StaysOnLine := h

theorem StaysOnLine.push {p : Part} (h : p.StaysOnLine) {taken : List Char}
    (front : ∀ c ∈ taken, isLineBreak c = false) : (p.push taken).StaysOnLine := by
  intro c inside
  rcases List.mem_append.mp inside with first | second
  · exact front c first
  · exact h c second

theorem StaysOnLine.andThen {p : Part} (h : p.StaysOnLine) {next : List Char → Part}
    (others : ∀ s, (next s).StaysOnLine) : (p.andThen next).StaysOnLine := by
  unfold Part.andThen
  split
  · exact (others p.rest).push h
  · exact h

/-- More in front, cut off where no pair is. -/
theorem EndsClean.push {p : Part} (h : p.EndsClean) {taken : List Char}
    (meets : CutsClean taken p.text) : (p.push taken).EndsClean :=
  meets.append h

end Part

section Numbers

variable {radix : Radix}

theorem staysOnLine_mantissa (digits : IsInline radix.isDigit) (s : List Char) :
    (mantissa radix s).StaysOnLine := by
  apply Part.StaysOnLine.require
  apply Part.StaysOnLine.andThen
  · exact (Part.staysOnLine_run digits s).andThen (Part.staysOnLine_optional ⟨rfl, rfl⟩)
  · exact Part.staysOnLine_run digits

theorem staysOnLine_noPoint (s : List Char) : (noPoint s).StaysOnLine :=
  (Part.staysOnLine_optional ⟨rfl, rfl⟩ s).require _

theorem staysOnLine_someDigits (s : List Char) : (someDigits s).StaysOnLine :=
  (Part.staysOnLine_run ⟨rfl, rfl⟩ s).require _

theorem staysOnLine_power (mark : IsInline radix.isExponentMark) (s : List Char) :
    (power radix s).StaysOnLine := by
  have first := Part.staysOnLine_optional mark s
  simp only [power]
  split
  · exact first
  · apply Part.StaysOnLine.andThen _ staysOnLine_noPoint
    apply Part.StaysOnLine.andThen _ staysOnLine_someDigits
    exact first.andThen (Part.staysOnLine_optional ⟨rfl, rfl⟩)

theorem staysOnLine_exponent (mark : IsInline radix.isExponentMark) (s : List Char) :
    (exponent radix s).StaysOnLine :=
  (staysOnLine_noPoint s).andThen (staysOnLine_power mark)

theorem staysOnLine_imaginaryUnit (dialect : Dialect) (s : List Char) :
    (imaginaryUnit dialect s).StaysOnLine := by
  unfold imaginaryUnit
  split
  · exact Part.staysOnLine_optional ⟨rfl, rfl⟩ s
  · exact Part.staysOnLine_nothing s

theorem staysOnLine_longMark (s : List Char) : (longMark s).StaysOnLine := by
  have mark (s : List Char) : (Part.optional isLongMark s).StaysOnLine :=
    Part.staysOnLine_optional ⟨rfl, rfl⟩ s
  simp only [longMark]
  split
  · exact mark s
  · exact (mark s).andThen fun s => (mark s).require _

theorem staysOnLine_integerSuffix (dialect : Dialect) (s : List Char) :
    (integerSuffix dialect s).StaysOnLine := by
  unfold integerSuffix
  split
  · exact (Part.staysOnLine_optional ⟨rfl, rfl⟩ s).andThen staysOnLine_longMark
  · exact Part.staysOnLine_nothing s

theorem staysOnLine_numberIn (dialect : Dialect) (digits : IsInline radix.isDigit)
    (mark : IsInline radix.isExponentMark) (s : List Char) :
    (numberIn dialect radix s).StaysOnLine := by
  apply (staysOnLine_mantissa digits s).andThen
  intro s
  apply (staysOnLine_exponent mark s).andThen
  intro s
  apply (staysOnLine_imaginaryUnit dialect s).andThen
  intro s
  exact (staysOnLine_integerSuffix dialect s).require _

theorem staysOnLine_number (dialect : Dialect) (s : List Char) :
    (number dialect s).StaysOnLine := by
  have decimal (s : List Char) : (numberIn dialect .decimal s).StaysOnLine :=
    staysOnLine_numberIn dialect ⟨rfl, rfl⟩ ⟨rfl, rfl⟩ s
  unfold number
  split
  · next mark s =>
    split
    · next isMark =>
      apply (staysOnLine_numberIn dialect ⟨rfl, rfl⟩ ⟨rfl, rfl⟩ s).push
      intro c inside
      rcases List.mem_cons.mp inside with rfl | inside
      · rfl
      · rw [List.mem_singleton] at inside
        subst inside
        have inline : IsInline isHexMark := ⟨rfl, rfl⟩
        exact inline.eq_false isMark
    · exact decimal _
  · exact decimal s

end Numbers

/-- Behind `\z` all white space is taken, and the string goes on behind it. -/
theorem quotedRest_skipping (quote : Char) (s : List Char) :
    quotedRest quote true s =
      (quotedRest quote false (s.dropWhile isSpace)).push (s.takeWhile isSpace) := by
  induction s with
  | nil => rfl
  | cons c s ih =>
    by_cases space : isSpace c
    · rw [quotedRest_cons, if_pos (by simp [space]), ih, List.dropWhile_cons_of_pos space,
        List.takeWhile_cons_of_pos space]
      rfl
    · rw [List.dropWhile_cons_of_neg space, List.takeWhile_cons_of_neg space, quotedRest_cons,
        quotedRest_cons]
      simp only [space, Bool.and_false]
      rfl

/-- Behind white space nothing can complete a pair. -/
theorem cutsClean_dropWhile_isSpace (before s : List Char) :
    CutsClean before (s.dropWhile isSpace) := by
  apply CutsClean.of_head
  intro c first
  have stops := List.head?_dropWhile_not isSpace s
  rw [Option.mem_def.mp first] at stops
  simp only [isSpace, Bool.or_eq_false_iff] at stops
  exact stops.2

theorem endsClean_quotedRest (quote : Char) (skipping : Bool) (s : List Char) :
    (quotedRest quote skipping s).EndsClean := by
  fun_induction quotedRest quote skipping s with
  | case1 => trivial
  | case2 skipping c s space ih =>
    -- The white space behind `\z` may hold pairs, so the run is taken as a whole.
    rw [quotedRest_skipping] at ih ⊢
    have text := text_quotedRest quote false (s.dropWhile isSpace)
    have meets (w : List Char) : CutsClean w
        ((quotedRest quote false (s.dropWhile isSpace)).taken ++
          (quotedRest quote false (s.dropWhile isSpace)).rest) := by
      rw [show _ ++ _ = s.dropWhile isSpace from text]
      exact cutsClean_dropWhile_isSpace w s
    have others := (CutsClean.append_iff (meets (s.takeWhile isSpace))).mp ih
    exact (meets (c :: s.takeWhile isSpace)).append others
  | case3 => trivial
  | case4 skipping c s space other same =>
    apply CutsClean.of_forall
    intro d inside
    rw [List.mem_singleton] at inside
    subst inside
    simpa using other
  | case5 => exact .nil_right _
  | case6 => exact .nil_right _
  | case7 skipping c space other quote escape a b s pair ih =>
    apply ih.push
    have single : isBreakPair c a = false :=
      isBreakPair_eq_false_left (by simpa using other) a
    simp [CutsClean, single, pair]
  | case8 skipping c space other quote escape a b s alone ih =>
    apply ih.push
    have single : isBreakPair c a = false :=
      isBreakPair_eq_false_left (by simpa using other) a
    rw [text_quotedRest]
    simpa [CutsClean, single] using alone
  | case9 skipping c s space other quote escape ih =>
    apply ih.push
    apply CutsClean.of_forall
    intro d inside
    rw [List.mem_singleton] at inside
    subst inside
    simpa using other

theorem endsClean_quoted {quote : Char} (h : isLineBreak quote = false) (s : List Char) :
    (quoted (quote :: s)).EndsClean := by
  apply (endsClean_quotedRest quote false s).push
  apply CutsClean.of_forall
  intro c inside
  rw [List.mem_singleton] at inside
  subst inside
  exact h

/-- A search for a closing bracket stops behind its last sign or at the end of the text. -/
theorem taken_through (close : List Char) (last : Char) (s : List Char) :
    (through (close ++ [last]) s).rest = [] ∨
      ∃ front, (through (close ++ [last]) s).taken = front ++ [last] := by
  induction s with
  | nil => exact .inl rfl
  | cons c s ih =>
    rw [through]
    split
    · next found =>
      have front := List.prefix_iff_eq_take.mp (List.isPrefixOf_iff_prefix.mp found)
      exact .inr ⟨close, front.symm⟩
    · rcases ih with done | ⟨front, same⟩
      · exact .inl done
      · right
        exists c :: front
        simp only [Part.push, same, List.cons_append, List.nil_append]

theorem endsClean_bracketed (level : Nat) (s : List Char) : (bracketed level s).EndsClean := by
  have closes : closing level = (']' :: List.replicate level '=') ++ [']'] := rfl
  unfold bracketed
  rw [closes]
  rcases taken_through (']' :: List.replicate level '=') ']' (s.drop (opening level).length) with
    done | ⟨front, same⟩
  · simp only [Part.EndsClean, Part.push, done]
    exact .nil_right _
  · simp only [Part.EndsClean, Part.push, same, ← List.append_assoc]
    exact .of_last rfl _ _

theorem staysOnLine_brokenOpening {c : Char} (h : isLineBreak c = false) (s : List Char) :
    (brokenOpening (c :: s)).StaysOnLine := by
  apply Part.StaysOnLine.require
  apply (Part.staysOnLine_run ⟨rfl, rfl⟩ s).push
  intro d inside
  rw [List.mem_singleton] at inside
  subst inside
  exact h

theorem endsClean_comment (s : List Char) :
    (match openingLevel? s with
      | some level => bracketed level s
      | none => lineComment s).EndsClean := by
  split
  · exact endsClean_bracketed _ s
  · exact (Part.staysOnLine_run ⟨rfl, rfl⟩ s).endsClean

theorem isLineBreak_of_mem_symbol {dialect : Dialect} {symbol : List Char}
    (h : symbol ∈ symbols dialect) {c : Char} (inside : c ∈ symbol) : isLineBreak c = false := by
  cases breaks : isLineBreak c with
  | false => rfl
  | true =>
    have space : isSpace c := by rw [isSpace, breaks, Bool.or_true]
    exact absurd inside (gap_notMem_symbols space dialect h)

/-- Reading a text that does not begin with a line break stops outside every pair. -/
theorem cutsClean_read (dialect : Dialect) {c : Char} (h : isLineBreak c = false) (s : List Char) :
    CutsClean (read dialect (c :: s)).taken (read dialect (c :: s)).rest := by
  unfold read
  split
  · apply CutsClean.of_forall
    intro d inside
    have part : isNamePart dialect.extendedIdentifiers d := List.mem_takeWhile_imp inside
    refine IsInline.eq_false ?_ part
    exact ⟨isNamePart_gap rfl _, isNamePart_gap rfl _⟩
  · exact endsClean_quoted h s
  · exact (staysOnLine_number dialect _).endsClean
  · apply (endsClean_comment _).push
    exact .of_forall (by simp [isLineBreak]) _
  · unfold readLongString
    split
    · exact endsClean_bracketed _ _
    · exact (staysOnLine_brokenOpening h s).endsClean
  · simp only [readSymbol]
    split
    · next symbol found =>
      exact .of_forall (fun d => isLineBreak_of_mem_symbol (List.mem_of_find?_eq_some found)) _
    · exact .of_last h [] _

end LuaFrontend.Lexeme
