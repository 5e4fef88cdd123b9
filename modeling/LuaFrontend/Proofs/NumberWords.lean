import LuaFrontend.Proofs.NumberReading
import LuaFrontend.Proofs.NumberLookahead

set_option autoImplicit false

namespace LuaFrontend.Lexeme.Numeral

variable {test : Char → Bool} {radix : Radix} {dialect : Dialect} {s w y : List Char}

section Words

theorem mem_optional {isOn : Bool} {l : Language Char} :
    w ∈ optional isOn l ↔ w = [] ∨ isOn ∧ w ∈ l := by
  cases isOn with
  | false => simp [optional]
  | true => simp [optional, Language.mem_add]

theorem mem_suffixes : w ∈ suffixes ↔ (∃ u, isUnsignedMark u ∧ w = [u]) ∨
    (∃ c d, isLongMark c ∧ isLongMark d ∧ w = [c, d]) ∨
      ∃ u c d, isUnsignedMark u ∧ isLongMark c ∧ isLongMark d ∧ w = [u, c, d] := by
  constructor
  · rintro ((unsigned | long) | both)
    · exact .inl unsigned
    · obtain ⟨first, ⟨c, mark, rfl⟩, second, ⟨d, also, rfl⟩, rfl⟩ := Language.mem_mul.mp long
      exact .inr (.inl ⟨c, d, mark, also, rfl⟩)
    · obtain ⟨front, begun, third, ⟨d, last, rfl⟩, rfl⟩ := Language.mem_mul.mp both
      obtain ⟨first, ⟨u, mark, rfl⟩, second, ⟨c, also, rfl⟩, rfl⟩ := Language.mem_mul.mp begun
      exact .inr (.inr ⟨u, c, d, mark, also, last, rfl⟩)
  · rintro (unsigned | ⟨c, d, mark, also, rfl⟩ | ⟨u, c, d, mark, also, last, rfl⟩)
    · exact .inl (.inl unsigned)
    · exact .inl (.inr (cons_mem_one_mul mark ⟨d, also, rfl⟩))
    · rw [suffixes, mul_assoc]
      exact .inr (cons_mem_one_mul mark (cons_mem_one_mul also ⟨d, last, rfl⟩))

theorem mem_endingLetters {c : Char} :
    c ∈ endingLetters ↔ isImaginaryUnit c ∨ isUnsignedMark c ∨ isLongMark c := by
  simp [endingLetters, isImaginaryUnit, isUnsignedMark, isLongMark, or_assoc]

theorem isImaginaryUnit_eq_false {c : Char} (h : isUnsignedMark c ∨ isLongMark c) :
    isImaginaryUnit c = false := by
  simp only [isUnsignedMark, isLongMark, Bool.or_eq_true, beq_iff_eq] at h
  rcases h with (rfl | rfl) | rfl | rfl <;> decide

theorem isUnsignedMark_eq_false {c : Char} (h : isLongMark c) : isUnsignedMark c = false := by
  simp only [isLongMark, Bool.or_eq_true, beq_iff_eq] at h
  rcases h with rfl | rfl <;> decide

theorem isSign_eq_false {c : Char} (h : isDigit c) : isSign c = false := by
  by_contra sign
  simp only [isSign, Bool.not_eq_false, Bool.or_eq_true, beq_iff_eq] at sign
  rcases sign with rfl | rfl <;> exact absurd h (by decide)

/-- A suffix begins with one of its letters. -/
theorem stops_suffix (h : w ∈ optional dialect.integerSuffixes suffixes)
    (fails : ∀ c, isUnsignedMark c ∨ isLongMark c → test c = false) : Stops test w := by
  rcases mem_optional.mp h with rfl | ⟨-, suffix⟩
  · exact stops_nil
  · rcases mem_suffixes.mp suffix with ⟨u, mark, rfl⟩ | ⟨c, d, mark, -, rfl⟩ |
      ⟨u, c, d, mark, -, -, rfl⟩
    · exact stops_cons.mpr (fails u (.inl mark))
    · exact stops_cons.mpr (fails c (.inr mark))
    · exact stops_cons.mpr (fails u (.inl mark))

/-- A unit or a suffix begins with one of the letters. -/
theorem stops_ending (h : w ∈ endings dialect) (fails : ∀ c ∈ endingLetters, test c = false) :
    Stops test w := by
  obtain ⟨u, unit, f, suffix, rfl⟩ := Language.mem_mul.mp h
  have ofSuffix : Stops test f :=
    stops_suffix suffix fun c mark => fails c (mem_endingLetters.mpr (.inr mark))
  refine stops_append ?_ fun _ => ofSuffix
  rcases mem_optional.mp unit with rfl | ⟨-, c, isUnit, rfl⟩
  · exact stops_nil
  · exact stops_cons.mpr (fails c (mem_endingLetters.mpr (.inl isUnit)))

theorem exponent_none (point : Stops isPoint y) (mark : Stops radix.isExponentMark y) :
    exponent radix y = ⟨[], y, true⟩ := by
  simp [exponent, noPoint, optional_of_stops point, power, optional_of_stops mark, Part.nothing,
    Part.require, Part.andThen, Part.push]

/-- A point behind a mantissa is one too many. -/
theorem exponent_point (y : List Char) : (exponent radix ('.' :: y)).complete = false := by
  have isPoint : isPoint '.' := rfl
  simp [exponent, noPoint, optional_cons isPoint, Part.require, Part.andThen]

/-- An exponent is read up to where it ends, where no point may stand. -/
theorem exponent_append (plain : IsPlain radix) (h : w ∈ exponents radix)
    (stops : Stops isDigit y) : exponent radix (w ++ y) = (noPoint y).push w := by
  obtain ⟨front, begun, digits, ⟨more, all⟩, rfl⟩ := Language.mem_mul.mp h
  obtain ⟨letter, ⟨c, mark, rfl⟩, sign, isSign, rfl⟩ := Language.mem_mul.mp begun
  have signed : Part.optional Lexeme.isSign (sign ++ (digits ++ y)) =
      ⟨sign, digits ++ y, true⟩ := by
    rcases isSign with none | ⟨d, isSign, rfl⟩
    · obtain rfl : sign = [] := none
      obtain ⟨d, others, rfl⟩ := List.exists_cons_of_ne_nil more
      exact optional_of_stops (stops_cons.mpr (isSign_eq_false (all d List.mem_cons_self)))
    · exact optional_cons isSign
  have read : someDigits (digits ++ y) = ⟨digits, y, true⟩ := by
    simp [someDigits, run_append all stops, Part.require, more]
  have behind : powerDigits (sign ++ (digits ++ y)) = (noPoint y).push (sign ++ digits) := by
    rw [powerDigits, signed, andThen_mk, read, Part.push, andThen_mk]
  have front : Stops isPoint (c :: (sign ++ (digits ++ y))) := stops_cons.mpr (plain.other c mark).2
  have same : [c] ++ sign ++ digits ++ y = c :: (sign ++ (digits ++ y)) := by simp
  have none : noPoint (c :: (sign ++ (digits ++ y))) =
      ⟨[], c :: (sign ++ (digits ++ y)), true⟩ := by
    simp [noPoint, optional_of_stops front, Part.nothing, Part.require]
  rw [same, exponent, none, andThen_mk, power_eq]
  simp only [optional_cons mark, andThen_mk]
  simp [ifTaken, behind, Part.push]

theorem imaginaryUnit_append (h : w ∈ optional dialect.imaginaryNumbers units)
    (stops : Stops isImaginaryUnit y) : imaginaryUnit dialect (w ++ y) = ⟨w, y, true⟩ := by
  unfold imaginaryUnit
  split
  · next on =>
    rcases mem_optional.mp h with rfl | ⟨-, c, isUnit, rfl⟩
    · exact optional_of_stops stops
    · exact optional_cons isUnit
  · next off =>
    obtain rfl := (mem_optional.mp h).resolve_right fun on => off on.1
    rfl

theorem integerSuffix_self (h : w ∈ optional dialect.integerSuffixes suffixes) :
    integerSuffix dialect w = ⟨w, [], true⟩ := by
  unfold integerSuffix
  split
  · next on =>
    rcases mem_optional.mp h with rfl | ⟨-, suffix⟩
    · rfl
    · rcases mem_suffixes.mp suffix with ⟨u, mark, rfl⟩ | ⟨c, d, mark, also, rfl⟩ |
        ⟨u, c, d, unsigned, mark, also, rfl⟩
      · rw [optional_cons mark]
        rfl
      · have signed : Stops isUnsignedMark [c, d] := stops_cons.mpr (isUnsignedMark_eq_false mark)
        rw [optional_of_stops signed]
        simp [Part.nothing, Part.andThen, longMark, optional_cons mark, optional_cons also,
          Part.push, Part.require]
      · rw [optional_cons unsigned]
        simp [Part.andThen, longMark, optional_cons mark, optional_cons also, Part.push,
          Part.require]
  · next off =>
    obtain rfl := (mem_optional.mp h).resolve_right fun on => off on.1
    rfl

variable {m e d u f : List Char}

theorem exponent_of_stops (plain : IsPlain radix) (h : e ∈ 1 + exponents radix)
    (digit : Stops isDigit y) (point : Stops isPoint y) (mark : Stops radix.isExponentMark y) :
    exponent radix (e ++ y) = ⟨e, y, true⟩ := by
  rcases h with none | power
  · obtain rfl : e = [] := none
    exact exponent_none point mark
  · rw [exponent_append plain power digit, noPoint, optional_of_stops point]
    simp [Part.nothing, Part.require, Part.push]

/-- An exponent begins with its letter. -/
theorem stops_exponent (h : e ∈ 1 + exponents radix)
    (fails : ∀ c, radix.isExponentMark c → test c = false) (stops : e = [] → Stops test y) :
    Stops test (e ++ y) := by
  rcases h with none | power
  · obtain rfl : e = [] := none
    exact stops rfl
  · obtain ⟨front, begun, digits, -, rfl⟩ := Language.mem_mul.mp power
    obtain ⟨letter, ⟨c, mark, rfl⟩, sign, -, rfl⟩ := Language.mem_mul.mp begun
    exact stops_cons.mpr (fails c mark)

theorem unitAndSuffix_append (isInteger : Bool) (unit : u ∈ optional dialect.imaginaryNumbers units)
    (suffix : f ∈ optional dialect.integerSuffixes suffixes) :
    unitAndSuffix dialect isInteger (u ++ f) =
      ⟨u ++ f, [], f.isEmpty || isInteger && u.isEmpty⟩ := by
  have stops : Stops isImaginaryUnit f := stops_suffix suffix fun _ => isImaginaryUnit_eq_false
  rw [unitAndSuffix, imaginaryUnit_append unit stops, andThen_mk, suffixOf,
    integerSuffix_self suffix]
  simp [Part.require, Part.push]

/-- A unit or a suffix is no digit, no letter of an exponent and no point. -/
theorem IsPlain.stops (plain : IsPlain radix) (h : w ∈ endings dialect) :
    Stops radix.isDigit w ∧ Stops isDigit w ∧ Stops isPoint w ∧ Stops radix.isExponentMark w :=
  ⟨stops_ending h fun c letter => plain.digit c (List.mem_cons_of_mem _ letter),
    stops_ending h (by simp [endingLetters, isDigit]),
    stops_ending h (by simp [endingLetters, isPoint]),
    stops_ending h fun c letter => plain.mark c (List.mem_cons_of_mem _ letter)⟩

/-- A mantissa ends where an exponent begins, or what follows one. -/
theorem mantissa_of_exponent (plain : IsPlain radix) (isMantissa : m ∈ looseMantissas radix)
    (isExponent : e ∈ 1 + exponents radix) (digit : Stops radix.isDigit y)
    (point : e = [] → m.any isPoint = false → Stops isPoint y) :
    mantissa radix (m ++ (e ++ y)) = ⟨m, e ++ y, m.any radix.isDigit⟩ :=
  mantissa_append plain isMantissa
    (stops_exponent isExponent (fun c mark => (plain.other c mark).1) fun _ => digit)
    fun none => stops_exponent isExponent (fun c mark => (plain.other c mark).2) (point · none)

theorem mantissa_of_ending (plain : IsPlain radix) (isMantissa : m ∈ looseMantissas radix)
    (isExponent : e ∈ 1 + exponents radix) (ending : w ∈ endings dialect) :
    mantissa radix (m ++ (e ++ w)) = ⟨m, e ++ w, m.any radix.isDigit⟩ := by
  obtain ⟨digit, -, point, -⟩ := plain.stops ending
  exact mantissa_of_exponent plain isMantissa isExponent digit fun _ _ => point

/-- What has no point too many is read to its end. -/
theorem numberIn_append (plain : IsPlain radix) (isMantissa : m ∈ looseMantissas radix)
    (isExponent : e ∈ 1 + exponents radix) (unit : u ∈ optional dialect.imaginaryNumbers units)
    (suffix : f ∈ optional dialect.integerSuffixes suffixes) (digit : m.any radix.isDigit) :
    numberIn dialect radix (m ++ (e ++ (u ++ f))) = ⟨m ++ (e ++ (u ++ f)), [],
      f.isEmpty || !m.any isPoint && e.isEmpty && u.isEmpty⟩ := by
  have ending : u ++ f ∈ endings dialect := Language.append_mem_mul unit suffix
  obtain ⟨-, digits, point, mark⟩ := plain.stops ending
  rw [numberIn_eq]
  simp only [mantissa_of_ending plain isMantissa isExponent ending, digit, andThen_mk,
    behindMantissa, exponent_of_stops plain isExponent digits point mark,
    unitAndSuffix_append _ unit suffix, Part.push]

theorem numberIn_of_mem (plain : IsPlain radix) (h : w ∈ numbersIn dialect radix) :
    numberIn dialect radix w = ⟨w, [], true⟩ := by
  rcases h with floating | integer
  · obtain ⟨front, begun, u, unit, rfl⟩ := Language.mem_mul.mp floating
    obtain ⟨m, isMantissa, e, isExponent, rfl⟩ := Language.mem_mul.mp begun
    obtain ⟨loose, digit⟩ := (mem_mantissas plain).mp isMantissa
    have read := numberIn_append plain loose isExponent unit (nil_mem_optional _ _) digit
    simpa using read
  · obtain ⟨m, digits, f, suffix, rfl⟩ := Language.mem_mul.mp integer
    have loose : m ∈ looseMantissas radix := mem_looseMantissas.mpr (.inl digits.2)
    have noPoint : m.any isPoint = false := plain.noPoint digits.2
    have read := numberIn_append plain loose (nil_mem_one_add _) (nil_mem_optional _ _) suffix
      (any_of_mem_some digits)
    simpa [noPoint] using read

/-- Where a number is whole, its mantissa and its exponent are. -/
theorem complete_of_numberIn (isMantissa : mantissa radix s = ⟨m, y, m.any radix.isDigit⟩)
    (whole : (numberIn dialect radix s).complete) :
    m.any radix.isDigit ∧ (exponent radix y).complete := by
  rw [numberIn_eq] at whole
  obtain ⟨digit, behind⟩ := Part.complete_andThen whole
  simp only [isMantissa] at digit behind
  exact ⟨digit, (Part.complete_andThen behind).1⟩

theorem rest_numberIn_of_ending (plain : IsPlain radix) (isMantissa : m ∈ looseMantissas radix)
    (isExponent : e ∈ 1 + exponents radix) (ending : w ∈ endings dialect)
    (whole : (numberIn dialect radix (m ++ (e ++ w))).complete) :
    (numberIn dialect radix (m ++ (e ++ w))).rest = [] := by
  have read := mantissa_of_ending plain isMantissa isExponent ending
  have digit := (complete_of_numberIn read whole).1
  obtain ⟨u, unit, f, suffix, rfl⟩ := Language.mem_mul.mp ending
  rw [numberIn_append plain isMantissa isExponent unit suffix digit]

/-- Behind what is permitted nothing is left, unless it is no number: a point too many belongs to a
mantissa that has none, and is an error behind any other and behind an exponent. -/
theorem rest_numberIn (plain : IsPlain radix)
    (h : w ∈ permittedIn dialect radix (looseMantissas radix))
    (whole : (numberIn dialect radix w).complete) : (numberIn dialect radix w).rest = [] := by
  rw [permittedIn_eq] at h
  obtain ⟨m, isMantissa, behind, following, rfl⟩ := Language.mem_mul.mp h
  obtain ⟨power, pointed, ending, isEnding, rfl⟩ := Language.mem_mul.mp following
  obtain ⟨e, isExponent, d, none | ⟨c, isPoint, rfl⟩, rfl⟩ := Language.mem_mul.mp pointed
  · obtain rfl : d = [] := none
    rw [List.append_nil] at whole ⊢
    exact rest_numberIn_of_ending plain isMantissa isExponent isEnding whole
  · obtain rfl := eq_point isPoint
    rw [List.append_assoc, List.cons_append, List.nil_append] at whole ⊢
    by_cases free : e = [] ∧ m.any Lexeme.isPoint = false
    · obtain ⟨rfl, noPoint⟩ := free
      have digits := mem_any_of_noPoint isMantissa noPoint
      have longer : m ++ ['.'] ∈ looseMantissas radix :=
        mem_looseMantissas.mpr (.inr ⟨m, digits, [], nil_mem_any, rfl⟩)
      have same : m ++ ([] ++ '.' :: ending) = m ++ ['.'] ++ ([] ++ ending) := by simp
      rw [same] at whole ⊢
      exact rest_numberIn_of_ending plain longer isExponent isEnding whole
    · have digit : Stops radix.isDigit ('.' :: ending) :=
        stops_cons.mpr (plain.digit '.' (by decide))
      have read := mantissa_of_exponent plain isMantissa isExponent digit
        fun none noPoint => absurd ⟨none, noPoint⟩ free
      have wrong := (complete_of_numberIn read whole).2
      rcases isExponent with none | isExponent
      · obtain rfl : e = [] := none
        rw [List.nil_append, exponent_point] at wrong
        cases wrong
      · rw [exponent_append plain isExponent (stops_cons.mpr (by decide))] at wrong
        cases wrong

theorem isHexMark_of_isDigit {c : Char} (h : isDigit c) : isHexMark c = false := by
  by_contra mark
  simp only [isHexMark, Bool.not_eq_false, Bool.or_eq_true, beq_iff_eq] at mark
  rcases mark with rfl | rfl <;> exact absurd h (by decide)

theorem isHexMark_of_mem_looseMantissas (h : w ∈ looseMantissas .decimal) :
    ∀ c ∈ w, isHexMark c = false := by
  rcases mem_looseMantissas.mp h with digits | ⟨a, front, b, back, rfl⟩
  · exact fun c member => isHexMark_of_isDigit (digits c member)
  · simp only [List.forall_mem_append, List.forall_mem_cons]
    exact ⟨fun c member => isHexMark_of_isDigit (front c member), rfl,
      fun c member => isHexMark_of_isDigit (back c member)⟩

theorem isHexMark_of_isExponentMark {c : Char} (h : Radix.decimal.isExponentMark c) :
    isHexMark c = false := by
  simp only [Radix.decimal, Bool.or_eq_true, beq_iff_eq] at h
  rcases h with rfl | rfl <;> decide

/-- No decimal number has the mark of a hexadecimal one as its second character. -/
theorem number_of_permitted (h : w ∈ permittedIn dialect .decimal (mantissas .decimal)) :
    number dialect w = numberIn dialect .decimal w := by
  rw [permittedIn_eq] at h
  obtain ⟨m, isMantissa, behind, following, rfl⟩ := Language.mem_mul.mp h
  obtain ⟨power, pointed, ending, isEnding, rfl⟩ := Language.mem_mul.mp following
  obtain ⟨e, isExponent, d, isPoint, rfl⟩ := Language.mem_mul.mp pointed
  obtain ⟨loose, digit⟩ := (mem_mantissas isPlain_decimal).mp isMantissa
  refine number_of_decimal fun mark rest same => ?_
  cases m with
  | nil => cases digit
  | cons c m =>
    have ofEnding : Stops isHexMark (d ++ ending) := by
      refine stops_append ?_ fun _ => stops_ending isEnding (by simp [endingLetters, isHexMark])
      rcases isPoint with none | ⟨c, isPoint, rfl⟩
      · obtain rfl : d = [] := none
        exact stops_nil
      · obtain rfl := eq_point isPoint
        exact stops_cons.mpr rfl
    have ofRest : Stops isHexMark (m ++ (e ++ (d ++ ending))) := by
      refine stops_append ?_ fun _ =>
        stops_exponent isExponent (fun _ => isHexMark_of_isExponentMark) fun _ => ofEnding
      exact fun c first => isHexMark_of_mem_looseMantissas loose c
        (List.mem_cons_of_mem _ (List.mem_of_mem_head? first))
    have behind : m ++ (e ++ (d ++ ending)) = mark :: rest := by simpa using (List.cons.inj same).2
    rw [behind] at ofRest
    exact stops_cons.mp ofRest

theorem mem_permittedIn_of_mem_numbersIn (h : w ∈ numbersIn dialect radix) :
    w ∈ permittedIn dialect radix (mantissas radix) := by
  have whole {m e u f : List Char} (isMantissa : m ∈ mantissas radix)
      (isExponent : e ∈ 1 + exponents radix) (unit : u ∈ optional dialect.imaginaryNumbers units)
      (suffix : f ∈ optional dialect.integerSuffixes suffixes) :
      m ++ (e ++ [] ++ (u ++ f)) ∈ permittedIn dialect radix (mantissas radix) := by
    rw [permittedIn_eq]
    have power := Language.append_mem_mul isExponent (nil_mem_one_add (one isPoint))
    exact Language.append_mem_mul isMantissa
      (Language.append_mem_mul power (Language.append_mem_mul unit suffix))
  rcases h with floating | integer
  · obtain ⟨front, begun, u, unit, rfl⟩ := Language.mem_mul.mp floating
    obtain ⟨m, isMantissa, e, isExponent, rfl⟩ := Language.mem_mul.mp begun
    simpa using whole isMantissa isExponent unit (nil_mem_optional _ _)
  · obtain ⟨m, digits, f, suffix, rfl⟩ := Language.mem_mul.mp integer
    have isMantissa : m ∈ mantissas radix :=
      .inl (Language.mem_mul.mpr ⟨m, digits, [], nil_mem_one_add _, List.append_nil m⟩)
    simpa using whole isMantissa (nil_mem_one_add _) (nil_mem_optional _ _) suffix

theorem mem_hexMarks : w ∈ hexMarks ↔ ∃ mark, isHexMark mark ∧ w = ['0', mark] := by
  constructor
  · intro h
    obtain ⟨zero, ⟨c, isZero, rfl⟩, letter, ⟨mark, isMark, rfl⟩, rfl⟩ := Language.mem_mul.mp h
    obtain rfl : c = '0' := by simpa using isZero
    exact ⟨mark, isMark, rfl⟩
  · rintro ⟨mark, isMark, rfl⟩
    exact cons_mem_one_mul rfl ⟨mark, isMark, rfl⟩

theorem permittedIn_mono {l l' : Language Char} (le : ∀ w ∈ l, w ∈ l')
    (h : w ∈ permittedIn dialect radix l) : w ∈ permittedIn dialect radix l' := by
  rw [permittedIn_eq] at h ⊢
  obtain ⟨m, isMantissa, behind, following, rfl⟩ := Language.mem_mul.mp h
  exact Language.append_mem_mul (le m isMantissa) following

/-- Every number is read to its end. -/
theorem number_of_mem (h : w ∈ numbers dialect) : number dialect w = ⟨w, [], true⟩ := by
  rcases h with decimal | hexadecimal
  · rw [number_of_permitted (mem_permittedIn_of_mem_numbersIn decimal)]
    exact numberIn_of_mem isPlain_decimal decimal
  · obtain ⟨marks, begun, digits, isNumber, rfl⟩ := Language.mem_mul.mp hexadecimal
    obtain ⟨mark, isMark, rfl⟩ := mem_hexMarks.mp begun
    rw [List.cons_append, List.cons_append, List.nil_append, number_of_hexadecimal isMark,
      numberIn_of_mem isPlain_hexadecimal isNumber]
    rfl

/-- A permitted word is read to its end or is no number. -/
theorem rest_number (h : w ∈ permitted dialect) (whole : (number dialect w).complete) :
    (number dialect w).rest = [] := by
  rcases h with decimal | hexadecimal
  · rw [number_of_permitted decimal] at whole ⊢
    refine rest_numberIn isPlain_decimal (permittedIn_mono ?_ decimal) whole
    exact fun m isMantissa => ((mem_mantissas isPlain_decimal).mp isMantissa).1
  · obtain ⟨marks, begun, digits, isPermitted, rfl⟩ := Language.mem_mul.mp hexadecimal
    obtain ⟨mark, isMark, rfl⟩ := mem_hexMarks.mp begun
    rw [List.cons_append, List.cons_append, List.nil_append, number_of_hexadecimal isMark]
      at whole ⊢
    exact rest_numberIn isPlain_hexadecimal isPermitted whole

end Words

end LuaFrontend.Lexeme.Numeral
