import LuaFrontend.Proofs.LexerMoves
import LuaFrontend.Proofs.NumberReading

set_option autoImplicit false

namespace LuaFrontend.Lexer

open Machine Lexeme Lexeme.Numeral

variable {α β : Type} {l : Lexer} {c : Char} {text rest : List Char} {test : Char → Bool}
  {radix : Radix}

/-- What an action comes to that reads this part of the text ahead. -/
def finish (l : Lexer) (p : Part) (fault : FaultRecord) (value : α) :
    Option (Except ErrorRecord α × Lexer) :=
  some (if p.complete then .ok value else .error ((l.moved p.taken).report fault), l.moved p.taken)

section Parts

variable {x : Action α} {f : α → Action β} {p : Part} {next : List Char → Part} {a : α} {b : β}
  {fault : FaultRecord}

theorem finish_of_complete (whole : p.complete = true) :
    l.finish p fault a = some (.ok a, l.moved p.taken) := by
  rw [finish, if_pos whole]

theorem finish_of_half (half : p.complete = false) :
    l.finish p fault a = some (.error ((l.moved p.taken).report fault), l.moved p.taken) := by
  rw [finish, if_neg (Bool.eq_false_iff.mp half)]

/-- One part behind another on the same line. -/
theorem finish_bind (first : x l = l.finish p fault a) (inline : p.StaysOnLine)
    (second : p.complete = true →
      f a (l.moved p.taken) = (l.moved p.taken).finish (next p.rest) fault b) :
    (x >>= f) l = l.finish (p.andThen next) fault b := by
  cases whole : p.complete with
  | false =>
    rw [finish_of_half whole] at first
    rw [bind_error first, Part.andThen, if_neg (Bool.eq_false_iff.mp whole), finish_of_half whole]
  | true =>
    rw [finish_of_complete whole] at first
    rw [bind_ok first, second whole, Part.andThen, if_pos whole, finish, finish,
      moved_inline inline]
    rfl

/-- The value only matters where the part is whole. -/
theorem finish_congr {a' : α} (same : p.complete = true → a = a') :
    l.finish p fault a = l.finish p fault a' := by
  cases whole : p.complete with
  | false => rw [finish_of_half whole, finish_of_half whole]
  | true => rw [same whole]

/-- A part with nothing behind it. -/
theorem finish_bind_pure (first : x l = l.finish p fault a) (f : α → β) :
    (x >>= fun a => pure (f a)) l = l.finish p fault (f a) := by
  cases whole : p.complete with
  | false =>
    rw [finish_of_half whole] at first
    rw [bind_error first, finish_of_half whole]
  | true =>
    rw [finish_of_complete whole] at first
    rw [bind_ok first, finish_of_complete whole]
    rfl

end Parts

/-- A class of ASCII characters without line breaks. -/
structure IsInlineAscii (test : Char → Bool) : Prop where
  one : ∀ c, test c → c.utf8Size = 1
  inline : IsInline test

namespace IsInlineAscii

theorem bytewise (h : IsInlineAscii test) : IsBytewise test := isBytewise_of_ascii h.one

theorem eq {c : Char} (one : c.utf8Size = 1) (inline : isLineBreak c = false) :
    IsInlineAscii (· == c) where
  one d same := by
    rw [beq_iff_eq.mp same]
    exact one
  inline := by
    constructor <;>
    · apply beq_eq_false_iff_ne.mpr
      rintro rfl
      contradiction

theorem or {test other : Char → Bool} (h : IsInlineAscii test) (g : IsInlineAscii other) :
    IsInlineAscii (fun c => test c || other c) where
  one c passes := (Bool.or_eq_true _ _ ▸ passes).elim (h.one c) (g.one c)
  inline := ⟨by simp only [h.inline.1, g.inline.1, Bool.or_self],
    by simp only [h.inline.2, g.inline.2, Bool.or_self]⟩

/-- Either of two characters. -/
theorem either {c d : Char} (first : c.utf8Size = 1) (inline : isLineBreak c = false)
    (second : d.utf8Size = 1) (inline' : isLineBreak d = false) :
    IsInlineAscii (fun e => e == c || e == d) :=
  (eq first inline).or (eq second inline')

theorem digit : IsInlineAscii isDigit := ⟨fun _ => utf8Size_of_isDigit, rfl, rfl⟩

theorem hexDigit : IsInlineAscii isHexDigit := ⟨fun _ => utf8Size_of_isHexDigit, rfl, rfl⟩

theorem point : IsInlineAscii isPoint := eq rfl rfl

theorem sign : IsInlineAscii isSign := either rfl rfl rfl rfl

theorem hexMark : IsInlineAscii isHexMark := either rfl rfl rfl rfl

theorem imaginaryUnit : IsInlineAscii isImaginaryUnit := either rfl rfl rfl rfl

theorem unsignedMark : IsInlineAscii isUnsignedMark := either rfl rfl rfl rfl

theorem longMark : IsInlineAscii isLongMark := either rfl rfl rfl rfl

theorem enabled (h : IsInlineAscii test) (enabled : Bool) :
    IsInlineAscii (fun c => enabled && test c) where
  one c passes := h.one c (Bool.and_eq_true _ _ ▸ passes).2
  inline := by cases enabled <;> [exact ⟨rfl, rfl⟩; exact h.inline]

end IsInlineAscii

section Characters

variable {fault : FaultRecord}

theorem Faces.advance_of_test (h : l.Faces (c :: rest)) (ascii : IsInlineAscii test)
    (passes : test c) : { l with scanner := l.scanner.advance } = l.moved [c] :=
  h.advance (ascii.one c passes) (ascii.inline.eq_false passes)

theorem Faces.isAt (h : l.Faces text) (ascii : IsInlineAscii test) :
    l.scanner.isAt test 0 = text.head?.any test :=
  h.scanner.isAt_zero ascii.bytewise

theorem head?_any_of_stops (stops : Stops test text) : text.head?.any test = false := by
  cases text with
  | nil => rfl
  | cons c text => exact stops_cons.mp stops

theorem stops_of_head?_any (h : ¬ text.head?.any test = true) : Stops test text := by
  intro c first
  rw [Option.mem_def.mp first] at h
  exact Bool.eq_false_iff.mpr h

theorem takeIf_eq (h : l.Faces text) (ascii : IsInlineAscii test) (fault : FaultRecord) :
    takeIf test l =
      l.finish (Part.optional test text) fault (!(Part.optional test text).taken.isEmpty) := by
  rw [takeIf, run_head, run_scan, h.isAt ascii]
  rcases optional_cases test text with ⟨c, rest, rfl, passes, part⟩ | ⟨stops, part⟩
  · rw [part, finish_of_complete rfl, List.head?_cons, Option.any_some, passes]
    simp only [↓reduceIte, h.advance_of_test ascii passes, run_pure]
    rfl
  · rw [part, finish_of_complete rfl, head?_any_of_stops stops]
    simp [Part.nothing]

theorem takeRun_eq (h : l.Faces text) (ascii : IsInlineAscii test) (fault : FaultRecord) :
    takeRun test l = l.finish (Part.run test text) fault () := by
  rw [finish_of_complete rfl, Part.run, ← h.scanWhile ascii.bytewise ascii.inline]
  rfl

/-- Behind a part of the text its rest is ahead. -/
theorem Faces.behind {p : Part} (h : l.Faces text) (split : p.text = text) :
    (l.moved p.taken).Faces p.rest := by
  rw [← split] at h
  exact h.moved

theorem refusePoint_eq (h : l.Faces text) :
    refusePoint l = l.finish (noPoint text) .malformedNumber () := by
  have point := takeIf_eq h .point .malformedNumber
  rw [refusePoint]
  rcases optional_cases isPoint text with ⟨c, rest, rfl, isPoint, part⟩ | ⟨stops, part⟩
  · rw [part, finish_of_complete rfl] at point
    have half : noPoint (c :: rest) = ⟨[c], rest, false⟩ := by rw [noPoint, part]; rfl
    rw [bind_ok point, half, finish_of_half rfl]
    exact (h.behind (p := ⟨[c], rest, false⟩) rfl).fail _
  · rw [part, finish_of_complete rfl] at point
    have whole : noPoint text = ⟨[], text, true⟩ := by rw [noPoint, part]; rfl
    rw [bind_ok point, whole, finish_of_complete rfl]
    rfl

theorem takeDigits_eq (h : l.Faces text) :
    takeDigits l = l.finish (someDigits text) .malformedNumber () := by
  rw [takeDigits, run_head, run_ite, h.isAt .digit]
  have run := takeRun_eq h .digit .malformedNumber
  cases text with
  | nil => exact h.fail _
  | cons c text =>
    rw [List.head?_cons, Option.any_some]
    by_cases digit : isDigit c
    · have part : someDigits (c :: text) = Part.run isDigit (c :: text) := by
        simp [someDigits, Part.run, Part.require, digit]
      rw [if_pos digit, run, part]
    · have part : someDigits (c :: text) = ⟨[], c :: text, false⟩ := by
        simp [someDigits, Part.run, Part.require, digit]
      rw [if_neg digit, part, finish_of_half rfl, moved_nil]
      exact h.fail _

end Characters

section Exponents

theorem noPoint_of_complete (h : (noPoint text).complete = true) :
    noPoint text = ⟨[], text, true⟩ := by
  rcases optional_cases isPoint text with ⟨c, rest, -, -, part⟩ | ⟨-, part⟩
  · rw [noPoint, part] at h
    contradiction
  · rw [noPoint, part]
    rfl

theorem power_cons (mark : radix.isExponentMark c) (rest : List Char) :
    power radix (c :: rest) = Part.andThen ⟨[c], rest, true⟩ powerDigits := by
  simp only [power_eq, optional_cons mark]
  rfl

theorem exponent_of_noPoint (h : (noPoint text).complete = true) :
    exponent radix text = power radix text := by
  rw [exponent, noPoint_of_complete h]
  rfl

/-- Behind the mark of an exponent there have to be digits. -/
theorem readExponent_digits (h : l.Faces text) :
    (do let _ ← takeIf isSign; takeDigits; refusePoint; return true : Action Bool) l =
      l.finish (powerDigits text) .malformedNumber true := by
  rw [powerDigits, Part.andThen_assoc]
  refine finish_bind (takeIf_eq h .sign _) (Part.staysOnLine_optional ⟨rfl, rfl⟩ text) fun _ => ?_
  have behind := h.behind (Part.text_optional isSign text)
  refine finish_bind (takeDigits_eq behind) (staysOnLine_someDigits _) fun _ => ?_
  exact finish_bind_pure (refusePoint_eq (behind.behind (text_someDigits _))) _

/-- The mark of an exponent is of ASCII. -/
theorem readExponent_eq (h : l.Faces text) (mark : IsInlineAscii radix.isExponentMark) :
    readExponent radix.isExponentMark l =
      l.finish (exponent radix text) .malformedNumber (!(exponent radix text).taken.isEmpty) := by
  rw [readExponent]
  refine finish_bind (refusePoint_eq h) (staysOnLine_noPoint text) fun whole => ?_
  rw [exponent_of_noPoint whole, noPoint_of_complete whole, moved_nil]
  have letter := takeIf_eq h mark .malformedNumber
  rcases optional_cases radix.isExponentMark text with
    ⟨c, rest, rfl, isMark, part⟩ | ⟨stops, part⟩
  · rw [part] at letter
    have inline : Part.StaysOnLine ⟨[c], rest, true⟩ :=
      part ▸ Part.staysOnLine_optional mark.inline _
    rw [power_cons isMark]
    refine (finish_bind letter inline fun _ => ?_).trans (finish_congr (a := true) fun _ => rfl)
    exact readExponent_digits h.moved
  · rw [part, finish_of_complete rfl] at letter
    have nothing : power radix text = Part.nothing text := by
      rw [power, part]
      rfl
    rw [bind_ok letter, nothing, finish_of_complete rfl]
    rfl

end Exponents

section Suffixes

variable {dialect : Dialect}

/-- Two letters, or none; behind a single one reading stops. -/
theorem readLongMark_eq (h : l.Faces text) (unsigned : Bool) :
    (do
      if (← head).isAt isLongMark 0 then
        if (← head).isAt isLongMark 1 then
          scan (·.advanceBy 2)
          return true
        else
          scan (·.advance)
          fail .malformedNumber
      else return unsigned : Action Bool) l =
      l.finish (longMark text) .malformedNumber (unsigned || !(longMark text).taken.isEmpty) := by
  simp only [run_head, run_ite, run_scan, run_pure, h.isAt .longMark]
  rcases optional_cases isLongMark text with ⟨c, rest, rfl, mark, part⟩ | ⟨stops, part⟩
  · have one := IsInlineAscii.longMark.one c mark
    have inline := IsInlineAscii.longMark.inline.eq_false mark
    rw [h.scanner.isAt_one one IsInlineAscii.longMark.bytewise, List.head?_cons, Option.any_some,
      if_pos mark]
    rcases optional_cases isLongMark rest with ⟨d, rest, rfl, also, next⟩ | ⟨stops, next⟩
    · have both : longMark (c :: d :: rest) = ⟨[c, d], rest, true⟩ := by
        simp [longMark, part, next, Part.andThen, Part.push, Part.require]
      have moved : { l with scanner := l.scanner.advanceBy 2 } = l.moved [c, d] :=
        h.advanceBy_length (a := [c, d])
          (by simpa using ⟨one, IsInlineAscii.longMark.one d also⟩)
          (by simpa using ⟨inline, IsInlineAscii.longMark.inline.eq_false also⟩)
      rw [both, finish_of_complete rfl, List.head?_cons, Option.any_some, if_pos also, moved]
      simp
    · have single : longMark (c :: rest) = ⟨[c], rest, false⟩ := by
        simp [longMark, part, next, Part.andThen, Part.push, Part.require, Part.nothing]
      rw [single, finish_of_half rfl, head?_any_of_stops stops, if_neg Bool.false_ne_true,
        h.advance one inline]
      exact (h.moved (a := [c])).fail _
  · have nothing : longMark text = Part.nothing text := by
      rw [longMark, part]
      rfl
    rw [nothing, finish_of_complete rfl, head?_any_of_stops stops, if_neg Bool.false_ne_true]
    simp [Part.nothing]

theorem readIntegerSuffix_eq (h : l.Faces text) :
    readIntegerSuffix l = l.finish (integerSuffix l.dialect text) .malformedNumber
      (!(integerSuffix l.dialect text).taken.isEmpty) := by
  rw [readIntegerSuffix, run_get, run_ite, integerSuffix]
  split
  · have first := takeIf_eq h .unsignedMark .malformedNumber
    have behind := h.behind (Part.text_optional isUnsignedMark text)
    refine (finish_bind first (Part.staysOnLine_optional ⟨rfl, rfl⟩ text) fun _ =>
      readLongMark_eq behind _).trans (finish_congr fun _ => ?_)
    have whole : (Part.optional isUnsignedMark text).complete = true := complete_optional _ _
    rw [Part.andThen, if_pos whole, Part.push]
    cases (Part.optional isUnsignedMark text).taken <;> rfl
  · rw [finish_of_complete rfl]
    simp [Part.nothing]

/-- A part that is refused behind its end. -/
theorem finish_require {p : Part} {a : Bool} {f : Bool → Bool} {x : Action Bool}
    (h : l.Faces text) (split : p.text = text) (first : x l = l.finish p .malformedNumber a) :
    (do if f (← x) then fail .malformedNumber) l =
      l.finish (p.require (!f a)) .malformedNumber () := by
  cases whole : p.complete with
  | false =>
    rw [finish_of_half whole] at first
    rw [bind_error first, finish_of_half (by rw [Part.require, whole]; rfl)]
    rfl
  | true =>
    rw [finish_of_complete whole] at first
    rw [bind_ok first, run_ite]
    split
    · next isRefused =>
      rw [finish_of_half (by simp [Part.require, isRefused])]
      exact (h.behind split).fail _
    · next allowed =>
      rw [finish_of_complete (by simp [Part.require, whole, allowed])]
      rfl

theorem imaginaryUnit_eq (dialect : Dialect) (s : List Char) : imaginaryUnit dialect s =
    Part.optional (fun c => dialect.imaginaryNumbers && isImaginaryUnit c) s := by
  unfold imaginaryUnit
  split
  · next enabled => simp only [enabled, Bool.true_and]
  · next disabled =>
    cases s with
    | nil => rfl
    | cons c s => simp [Part.optional, disabled]

theorem readNumberSuffixes_eq (h : l.Faces text) (isFractional : Bool) :
    readNumberSuffixes isFractional l =
      l.finish (unitAndSuffix l.dialect (!isFractional) text) .malformedNumber () := by
  rw [readNumberSuffixes, run_get, unitAndSuffix, imaginaryUnit_eq]
  have ascii := IsInlineAscii.imaginaryUnit.enabled l.dialect.imaginaryNumbers
  refine finish_bind (takeIf_eq h ascii _) (Part.staysOnLine_optional ascii.inline text) fun _ => ?_
  have behind := h.behind (Part.text_optional
    (fun c => l.dialect.imaginaryNumbers && isImaginaryUnit c) text)
  rw [suffixOf]
  refine (finish_require (f := fun suffix => suffix && (isFractional || _)) behind
    (text_integerSuffix l.dialect _) (readIntegerSuffix_eq behind)).trans ?_
  simp only [dialect_moved, Bool.not_and, Bool.not_or, Bool.not_not]

end Suffixes

section Mantissas

/-- What is read of a mantissa. -/
def mantissaDigits (radix : Radix) (s : List Char) : Part :=
  (Part.run radix.isDigit s).andThen fun s =>
    (Part.optional isPoint s).andThen (Part.run radix.isDigit)

theorem mantissa_eq (radix : Radix) (s : List Char) : mantissa radix s =
    (mantissaDigits radix s).require ((mantissaDigits radix s).taken.any radix.isDigit) := by
  simp only [mantissa, mantissaDigits, Part.andThen_assoc]

/-- Behind the digits, the exponent and the suffixes are read alike in both radixes. -/
theorem readBehind_eq (radix : Radix) (h : l.Faces text) (mark : IsInlineAscii radix.isExponentMark)
    (digits : List Char) :
    (do
      let exponent ← readExponent radix.isExponentMark
      readNumberSuffixes (digits.any isPoint || exponent)) l =
      l.finish (behindMantissa l.dialect radix digits text) .malformedNumber () := by
  rw [behindMantissa]
  refine finish_bind (readExponent_eq h mark) (staysOnLine_exponent mark.inline text) fun _ => ?_
  have behind := h.behind (text_exponent radix text)
  rw [readNumberSuffixes_eq behind, Bool.not_or, Bool.not_not]
  rfl

theorem run_of_stops (stops : Stops test text) : Part.run test text = Part.nothing text := by
  cases text with
  | nil => rfl
  | cons c text => simp [Part.run, Part.nothing, stops_cons.mp stops]

/-- Where digits have ended, there are more of them only behind a point. -/
theorem behindPoint_eq {x : Action α} {f : α → β} {none : β} {value : List Char → α}
    (h : l.Faces text) (stops : Stops test text)
    (digits : ∀ {m : Lexer} {rest : List Char}, m.Faces rest →
      x m = m.finish (Part.run test rest) .malformedNumber (value rest)) :
    (do if ← takeIf isPoint then return f (← x) else return none) l =
      l.finish ((Part.optional isPoint text).andThen (Part.run test)) .malformedNumber
        (if (Part.optional isPoint text).taken.isEmpty then none
          else f (value (Part.optional isPoint text).rest)) := by
  have point := takeIf_eq h .point .malformedNumber
  rcases optional_cases isPoint text with ⟨c, rest, rfl, isPoint, part⟩ | ⟨noPoint, part⟩
  · rw [part] at point ⊢
    have inline : Part.StaysOnLine ⟨[c], rest, true⟩ :=
      part ▸ Part.staysOnLine_optional ⟨rfl, rfl⟩ _
    refine finish_bind point inline fun _ => ?_
    exact finish_bind_pure (digits (h.moved (a := [c]))) f
  · rw [part] at point ⊢
    rw [finish_of_complete rfl] at point
    rw [bind_ok point, Part.nothing, Part.andThen, if_pos rfl, run_of_stops stops,
      finish_of_complete rfl]
    rfl

theorem takeFraction_eq (h : l.Faces text) (stops : Stops isDigit text) : takeFraction l =
    l.finish ((Part.optional isPoint text).andThen (Part.run isDigit)) .malformedNumber
      (!(Part.optional isPoint text).taken.isEmpty) := by
  refine (behindPoint_eq (f := fun _ => true) h stops fun behind =>
    takeRun_eq behind .digit _).trans (finish_congr fun _ => ?_)
  cases (Part.optional isPoint text).taken <;> rfl

theorem stops_dropWhile (test : Char → Bool) (s : List Char) : Stops test (s.dropWhile test) := by
  intro c first
  have stops := List.head?_dropWhile_not test s
  rwa [Option.mem_def.mp first] at stops

theorem mantissaDigits_eq (radix : Radix) (s : List Char) :
    mantissaDigits radix s =
      ⟨s.takeWhile radix.isDigit ++
        ((Part.optional isPoint (s.dropWhile radix.isDigit)).taken ++
          (Part.optional isPoint (s.dropWhile radix.isDigit)).rest.takeWhile radix.isDigit),
        (Part.optional isPoint (s.dropWhile radix.isDigit)).rest.dropWhile radix.isDigit, true⟩ := by
  rw [mantissaDigits, Part.andThen_of_complete rfl, Part.andThen_of_complete (complete_optional _ _)]
  rfl

theorem andThen_mantissaDigits (radix : Radix) (s : List Char) (next : List Char → Part) :
    (mantissaDigits radix s).andThen next = (Part.run radix.isDigit s).andThen fun s =>
      ((Part.optional isPoint s).andThen (Part.run radix.isDigit)).andThen next :=
  Part.andThen_assoc _ _ _

theorem any_isPoint_mantissaDigits (plain : IsPlain radix) (s : List Char) :
    (mantissaDigits radix s).taken.any isPoint =
      !(Part.optional isPoint (s.dropWhile radix.isDigit)).taken.isEmpty := by
  rw [mantissaDigits_eq, List.any_append, List.any_append,
    plain.noPoint (takeWhile_mem radix.isDigit s),
    plain.noPoint (takeWhile_mem radix.isDigit _), Bool.false_or, Bool.or_false]
  rcases optional_cases isPoint (s.dropWhile radix.isDigit) with
    ⟨c, rest, -, isPoint, part⟩ | ⟨-, part⟩
  · rw [part, List.any_cons, isPoint]
    rfl
  · rw [part]
    rfl

/-- There is a digit in front of the point or behind it. -/
theorem any_isDigit_mantissaDigits (plain : IsPlain radix) (s : List Char) :
    (mantissaDigits radix s).taken.any radix.isDigit =
      !(byteLength (s.takeWhile radix.isDigit) + byteLength
        ((Part.optional isPoint (s.dropWhile radix.isDigit)).rest.takeWhile radix.isDigit) == 0) := by
  have digits (w : List Char) (all : ∀ c ∈ w, radix.isDigit c) :
      w.any radix.isDigit = !(byteLength w == 0) := by
    cases w with
    | nil => rfl
    | cons c w =>
      have some : byteLength (c :: w) ≠ 0 := mt byteLength_eq_zero.mp (List.cons_ne_nil c w)
      rw [List.any_cons, all c List.mem_cons_self, beq_eq_false_iff_ne.mpr some]
      rfl
  have point : (Part.optional isPoint (s.dropWhile radix.isDigit)).taken.any radix.isDigit =
      false := by
    rcases optional_cases isPoint (s.dropWhile radix.isDigit) with
      ⟨c, rest, -, isPoint, part⟩ | ⟨-, part⟩
    · rw [part, eq_point isPoint, List.any_cons, plain.digit '.' (by decide)]
      rfl
    · rw [part]
      rfl
  rw [mantissaDigits_eq, List.any_append, List.any_append, point, Bool.false_or,
    digits _ fun _ => List.mem_takeWhile_imp, digits _ fun _ => List.mem_takeWhile_imp]
  generalize byteLength _ = m
  generalize byteLength _ = n
  cases m <;> cases n <;> rfl

/-- With a digit among them, a number goes on behind its digits. -/
theorem numberIn_eq_digits (dialect : Dialect) (radix : Radix) (s : List Char) :
    numberIn dialect radix s = (mantissaDigits radix s).andThen
      (if (mantissaDigits radix s).taken.any radix.isDigit then
        behindMantissa dialect radix (mantissaDigits radix s).taken
      else Part.missing) := by
  have whole : (mantissaDigits radix s).complete = true := by rw [mantissaDigits_eq]
  simp only [numberIn_eq, mantissa_eq]
  cases (mantissaDigits radix s).taken.any radix.isDigit with
  | true =>
    rw [Part.require, Bool.and_true]
    rfl
  | false =>
    rw [Part.andThen_of_complete whole, Part.andThen_of_incomplete (by simp [Part.require])]
    simp [Part.require, Part.missing, Part.push]

/-- The point and the digits behind it. -/
theorem staysOnLine_fraction (radix : Radix) (digits : IsInline radix.isDigit) (s : List Char) :
    ((Part.optional isPoint s).andThen (Part.run radix.isDigit)).StaysOnLine :=
  (Part.staysOnLine_optional ⟨rfl, rfl⟩ s).andThen (Part.staysOnLine_run digits)

theorem text_fraction (radix : Radix) (s : List Char) :
    ((Part.optional isPoint s).andThen (Part.run radix.isDigit)).text = s := by
  rw [Part.text_andThen (Part.text_run _ _), Part.text_optional]

theorem readDecimalNumber_eq (h : l.Faces text)
    (some : (mantissaDigits .decimal text).taken.any Radix.decimal.isDigit) :
    readDecimalNumber l = l.finish (numberIn l.dialect .decimal text) .malformedNumber () := by
  rw [readDecimalNumber, numberIn_eq_digits, if_pos some, andThen_mantissaDigits]
  refine finish_bind (takeRun_eq h .digit _) (Part.staysOnLine_run ⟨rfl, rfl⟩ text) fun _ => ?_
  have behind := h.behind (Part.text_run isDigit text)
  have fraction := takeFraction_eq behind (stops_dropWhile isDigit text)
  refine finish_bind fraction (staysOnLine_fraction .decimal ⟨rfl, rfl⟩ _) fun _ => ?_
  have further := readBehind_eq .decimal
    (behind.behind (text_fraction .decimal _)) (.either rfl rfl rfl rfl)
    (mantissaDigits .decimal text).taken
  rw [any_isPoint_mantissaDigits isPlain_decimal] at further
  exact further

theorem countHexDigits_eq (h : l.Faces text) : countHexDigits l =
    l.finish (Part.run isHexDigit text) .malformedNumber
      (byteLength (text.takeWhile isHexDigit)) := by
  have run := takeRun_eq h .hexDigit .malformedNumber
  rw [finish_of_complete rfl] at run
  rw [countHexDigits, run_head, bind_ok run, finish_of_complete rfl, run_head]
  have position := Scanner.position_passed l.scanner (text.takeWhile isHexDigit)
  have counted : sub? (l.moved (Part.run isHexDigit text).taken).scanner.position
      l.scanner.position = Option.some (byteLength (text.takeWhile isHexDigit)) := by
    change sub? (l.scanner.passed (text.takeWhile isHexDigit)).position _ = _
    rw [position, sub?_of_le (Nat.le_add_right _ _), Nat.add_sub_cancel_left]
  rw [counted]
  rfl

theorem countFraction_eq (h : l.Faces text) (stops : Stops isHexDigit text) : countFraction l =
    l.finish ((Part.optional isPoint text).andThen (Part.run isHexDigit)) .malformedNumber
      (!(Part.optional isPoint text).taken.isEmpty,
        byteLength ((Part.optional isPoint text).rest.takeWhile isHexDigit)) := by
  refine (behindPoint_eq (f := fun count => (true, count)) h stops
    countHexDigits_eq).trans (finish_congr fun _ => ?_)
  rcases optional_cases isPoint text with ⟨c, rest, rfl, isPoint, part⟩ | ⟨noPoint, part⟩
  · rw [part]
    rfl
  · have none : text.takeWhile isHexDigit = [] := congrArg Part.taken (run_of_stops stops)
    rw [part, Part.nothing, none]
    rfl

/-- A part behind something on the same line. -/
theorem finish_push {p : Part} {fault : FaultRecord} {a : α} {taken : List Char}
    (inline : ∀ c ∈ taken, isLineBreak c = false) :
    (l.moved taken).finish p fault a = l.finish (p.push taken) fault a := by
  rw [finish, finish, moved_inline inline]
  rfl

/-- Where neither a digit nor a point comes, there is no mantissa. -/
theorem mantissaDigits_of_stops {s : List Char} (digit : Stops radix.isDigit s)
    (point : Stops isPoint s) : mantissaDigits radix s = Part.nothing s := by
  rw [mantissaDigits, run_of_stops digit, Part.nothing, andThen_mk, optional_of_stops point,
    Part.nothing, andThen_mk, run_of_stops digit]
  rfl

/-- A hexadecimal number behind its `0x`. -/
theorem readHexDigits_eq (h : l.Faces text) :
    (do
      let whole ← countHexDigits
      let (fractional, fraction) ← countFraction
      if whole + fraction == 0 then fail .malformedNumber
      else
        let exponent ← readExponent fun c => c == 'p' || c == 'P'
        readNumberSuffixes (fractional || exponent)) l =
      l.finish (numberIn l.dialect .hexadecimal text) .malformedNumber () := by
  rw [numberIn_eq_digits, andThen_mantissaDigits]
  refine finish_bind (countHexDigits_eq h) (Part.staysOnLine_run ⟨rfl, rfl⟩ text) fun _ => ?_
  have behind := h.behind (Part.text_run isHexDigit text)
  have fraction := countFraction_eq behind (stops_dropWhile isHexDigit text)
  refine finish_bind fraction (staysOnLine_fraction .hexadecimal ⟨rfl, rfl⟩ _)
    fun _ => ?_
  have ahead := behind.behind (text_fraction .hexadecimal _)
  have sum := any_isDigit_mantissaDigits isPlain_hexadecimal text
  cases some : (mantissaDigits .hexadecimal text).taken.any Radix.hexadecimal.isDigit with
  | false =>
    rw [some, eq_comm, Bool.not_eq_false'] at sum
    rw [if_neg Bool.false_ne_true, Part.missing, finish_of_half rfl, moved_nil]
    dsimp only
    rw [run_ite, if_pos (by exact sum)]
    exact ahead.fail _
  | true =>
    rw [some, eq_comm, Bool.not_eq_true'] at sum
    have further := readBehind_eq .hexadecimal ahead (.either rfl rfl rfl rfl)
      (mantissaDigits .hexadecimal text).taken
    rw [any_isPoint_mantissaDigits isPlain_hexadecimal] at further
    dsimp only
    rw [if_pos rfl, run_ite, if_neg (Bool.eq_false_iff.mp (by exact sum))]
    exact further

theorem readHexNumber_eq {mark : Char} (h : l.Faces ('0' :: mark :: text)) (isMark : isHexMark mark) :
    readHexNumber l = l.finish ((numberIn l.dialect .hexadecimal text).push ['0', mark])
      .malformedNumber () := by
  have inline : ∀ c ∈ ['0', mark], isLineBreak c = false := by
    simpa using ⟨rfl, IsInlineAscii.hexMark.inline.eq_false isMark⟩
  have moved : { l with scanner := l.scanner.advanceBy 2 } = l.moved ['0', mark] :=
    h.advanceBy_length (a := ['0', mark])
      (by simpa using ⟨rfl, IsInlineAscii.hexMark.one mark isMark⟩) inline
  have behind := h.moved (a := ['0', mark])
  rw [readHexNumber, run_scan, moved, ← finish_push inline, run_head, run_ite,
    behind.isAt .hexDigit, behind.isAt .point]
  split
  · exact readHexDigits_eq behind
  · next stops =>
    rw [Bool.or_eq_true, not_or] at stops
    have nothing : mantissaDigits .hexadecimal text = Part.nothing text :=
      mantissaDigits_of_stops (stops_of_head?_any stops.1) (stops_of_head?_any stops.2)
    have noDigit : ¬ (Part.nothing text).taken.any Radix.hexadecimal.isDigit := Bool.false_ne_true
    rw [numberIn_eq_digits, nothing, Part.andThen_of_complete rfl, if_neg noDigit, Part.missing,
      finish_of_half rfl]
    exact behind.fail _

end Mantissas

/-- A token of a part that is read. -/
theorem finish_makeToken {x : Action Unit} {p : Part} {fault : FaultRecord} {kind : TokenKind}
    (h : l.Faces text) (split : p.text = text) (first : x l = l.finish p fault ()) :
    (do x; makeToken kind) l = l.finish p fault ((l.moved p.taken).token kind) := by
  cases whole : p.complete with
  | false =>
    rw [finish_of_half whole] at first
    rw [bind_error first, finish_of_half whole]
  | true =>
    rw [finish_of_complete whole] at first
    rw [bind_ok first, finish_of_complete whole]
    exact (h.behind split).makeToken kind

/-- A number begins with a digit, or with a point and a digit. -/
theorem any_isDigit_of_start {dialect : Dialect} (h : start dialect text = .number) :
    (mantissaDigits .decimal text).taken.any Radix.decimal.isDigit := by
  cases text with
  | nil => contradiction
  | cons c s =>
    have begins : isDigit c ∨ c = '.' ∧ s.head?.any isDigit := by
      simp only [start] at h
      repeat' split at h
      all_goals simp_all
    rw [mantissaDigits_eq]
    rcases begins with digit | ⟨rfl, digit⟩
    · rw [List.takeWhile_cons_of_pos (by exact digit), List.any_append, List.any_cons]
      simp only [Radix.decimal, digit, Bool.true_or]
    · cases s with
      | nil => contradiction
      | cons d s =>
        have point : Part.optional isPoint (('.' :: d :: s).dropWhile Radix.decimal.isDigit) =
            ⟨['.'], d :: s, true⟩ := rfl
        have behind : (d :: s).takeWhile Radix.decimal.isDigit =
            d :: s.takeWhile Radix.decimal.isDigit := List.takeWhile_cons_of_pos digit
        have isDigit : Radix.decimal.isDigit d := digit
        rw [point, behind]
        simp only [List.any_append, List.any_cons, isDigit, Bool.true_or, Bool.or_true]

/-- Numbers are read as their recognizer reads them. -/
theorem readNumber_eq (h : l.Faces text) (begins : start l.dialect text = .number) :
    readNumber l = l.finish (number l.dialect text) .malformedNumber
      ((l.moved (number l.dialect text).taken).token .number) := by
  have split := text_number l.dialect text
  have zero : IsInlineAscii (· == '0') := .eq rfl rfl
  rw [readNumber, run_head, run_ite, h.isAt zero]
  rcases hexadecimal_or_decimal text with ⟨mark, rest, isMark, rfl⟩ | decimal
  · rw [h.scanner.isAt_one rfl IsInlineAscii.hexMark.bytewise, if_pos (by simpa using isMark)]
    refine finish_makeToken h split ?_
    rw [number_of_hexadecimal isMark]
    exact readHexNumber_eq h isMark
  · rw [if_neg]
    · refine finish_makeToken h split ?_
      rw [number_of_decimal decimal]
      exact readDecimalNumber_eq h (any_isDigit_of_start begins)
    · rw [Bool.and_eq_true, not_and]
      intro isZero
      cases text with
      | nil => contradiction
      | cons c rest =>
        obtain rfl : c = '0' := beq_iff_eq.mp isZero
        rw [h.scanner.isAt_one rfl IsInlineAscii.hexMark.bytewise]
        cases rest with
        | nil => exact Bool.false_ne_true
        | cons mark rest => simp [decimal mark rest rfl]

end LuaFrontend.Lexer
