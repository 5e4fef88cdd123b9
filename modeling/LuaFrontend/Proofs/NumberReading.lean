import LuaFrontend.Proofs.LexemeCut
import LuaFrontend.Proofs.NumberLanguage

set_option autoImplicit false

namespace LuaFrontend.Lexeme.Numeral

variable {test : Char → Bool} {radix : Radix} {dialect : Dialect} {s w y : List Char}

section Classes

/-- The text does not go on with such a character. -/
def Stops (test : Char → Bool) (s : List Char) : Prop := ∀ c ∈ s.head?, test c = false

theorem stops_nil : Stops test [] := by simp [Stops]

theorem stops_cons {c : Char} : Stops test (c :: s) ↔ test c = false := by simp [Stops]

theorem stops_append (h : Stops test s) (g : s = [] → Stops test y) : Stops test (s ++ y) := by
  cases s with
  | nil => exact g rfl
  | cons c s => exact h

theorem optional_of_stops (h : Stops test s) : Part.optional test s = Part.nothing s := by
  cases s with
  | nil => rfl
  | cons c s => exact if_neg (by simp [stops_cons.mp h])

/-- Behind a complete part the next recognizer is run. -/
theorem andThen_mk (taken rest : List Char) (next : List Char → Part) :
    (Part.mk taken rest true).andThen next = (next rest).push taken := rfl

theorem optional_cons {c : Char} (h : test c) : Part.optional test (c :: s) = ⟨[c], s, true⟩ :=
  if_pos h

theorem optional_cases (test : Char → Bool) (s : List Char) :
    (∃ c rest, s = c :: rest ∧ test c ∧ Part.optional test s = ⟨[c], rest, true⟩) ∨
      Stops test s ∧ Part.optional test s = Part.nothing s := by
  cases s with
  | nil => exact .inr ⟨stops_nil, rfl⟩
  | cons c s =>
    cases passes : test c with
    | true => exact .inl ⟨c, s, rfl, passes, optional_cons passes⟩
    | false => exact .inr ⟨stops_cons.mpr passes, optional_of_stops (stops_cons.mpr passes)⟩

theorem takeWhile_mem (test : Char → Bool) (s : List Char) : s.takeWhile test ∈ any test :=
  fun _ member => List.mem_takeWhile_imp member

theorem run_append (h : w ∈ any test) (stops : Stops test y) :
    Part.run test (w ++ y) = ⟨w, y, true⟩ := by
  have ends : y.takeWhile test = [] ∧ y.dropWhile test = y := by
    cases y with
    | nil => exact ⟨rfl, rfl⟩
    | cons c y =>
      have other := stops_cons.mp stops
      exact ⟨List.takeWhile_cons_of_neg (by simp [other]),
        List.dropWhile_cons_of_neg (by simp [other])⟩
  rw [Part.run, List.takeWhile_append_of_pos h, List.dropWhile_append_of_pos h, ends.1, ends.2,
    List.append_nil]

theorem nil_mem_any : [] ∈ any test := List.forall_mem_nil _

theorem append_mem_any (h : w ∈ any test) (g : y ∈ any test) : w ++ y ∈ any test :=
  List.forall_mem_append.mpr ⟨h, g⟩

theorem cons_mem_one_mul {l : Language Char} {c : Char} (h : test c) (g : w ∈ l) :
    c :: w ∈ one test * l :=
  Language.append_mem_mul (show [c] ∈ one test from ⟨c, h, rfl⟩) g

theorem eq_point {c : Char} (h : isPoint c) : c = '.' := by simpa [isPoint] using h

end Classes

section Mantissas

theorem mem_looseMantissas : w ∈ looseMantissas radix ↔
    w ∈ any radix.isDigit ∨
      ∃ a ∈ any radix.isDigit, ∃ b ∈ any radix.isDigit, w = a ++ '.' :: b := by
  constructor
  · intro h
    obtain ⟨a, front, tail, none | pointed, rfl⟩ := Language.mem_mul.mp h
    · obtain rfl : tail = [] := none
      exact .inl (by simpa using front)
    · obtain ⟨point, ⟨c, isPoint, rfl⟩, b, back, rfl⟩ := Language.mem_mul.mp pointed
      exact .inr ⟨a, front, b, back, by rw [eq_point isPoint]; rfl⟩
  · rintro (digits | ⟨a, front, b, back, rfl⟩)
    · exact Language.mem_mul.mpr ⟨w, digits, [], .inl rfl, List.append_nil w⟩
    · exact Language.append_mem_mul front (.inr (cons_mem_one_mul rfl back))

/-- The letters of units and suffixes. -/
def endingLetters : List Char := ['i', 'I', 'u', 'U', 'l', 'L']

/-- The digits, the letter of the exponent, the point and the other letters are told apart. -/
structure IsPlain (radix : Radix) : Prop where
  digit : ∀ c ∈ '.' :: endingLetters, radix.isDigit c = false
  mark : ∀ c ∈ '.' :: endingLetters, radix.isExponentMark c = false
  other : ∀ c, radix.isExponentMark c → radix.isDigit c = false ∧ isPoint c = false

theorem isPlain_decimal : IsPlain .decimal where
  digit := by simp [endingLetters, Radix.decimal, isDigit]
  mark := by simp [endingLetters, Radix.decimal]
  other c h := by
    simp only [Radix.decimal, Bool.or_eq_true, beq_iff_eq] at h
    rcases h with rfl | rfl <;> decide

theorem isPlain_hexadecimal : IsPlain .hexadecimal where
  digit := by simp [endingLetters, Radix.hexadecimal, isHexDigit]
  mark := by simp [endingLetters, Radix.hexadecimal]
  other c h := by
    simp only [Radix.hexadecimal, Bool.or_eq_true, beq_iff_eq] at h
    rcases h with rfl | rfl <;> decide

theorem IsPlain.noPoint (plain : IsPlain radix) (h : w ∈ any radix.isDigit) :
    w.any isPoint = false := by
  rw [List.any_eq_false]
  intro c member isPoint
  have digit := h c member
  rw [eq_point isPoint, plain.digit '.' (by decide)] at digit
  cases digit

theorem any_of_mem_some (h : w ∈ some test) : w.any test := by
  obtain ⟨c, rest, rfl⟩ := List.exists_cons_of_ne_nil h.1
  simp [h.2 c List.mem_cons_self]

/-- A mantissa is one that has a digit. -/
theorem mem_mantissas (plain : IsPlain radix) : w ∈ mantissas radix ↔
    w ∈ looseMantissas radix ∧ w.any radix.isDigit := by
  rw [mem_looseMantissas]
  constructor
  · rintro (digits | pointed)
    · obtain ⟨a, front, tail, none | pointed, rfl⟩ := Language.mem_mul.mp digits
      · obtain rfl : tail = [] := none
        rw [List.append_nil]
        exact ⟨.inl front.2, any_of_mem_some front⟩
      · obtain ⟨point, ⟨c, isPoint, rfl⟩, b, back, rfl⟩ := Language.mem_mul.mp pointed
        refine ⟨.inr ⟨a, front.2, b, back, by rw [eq_point isPoint]; rfl⟩, ?_⟩
        rw [List.any_append, any_of_mem_some front, Bool.true_or]
    · obtain ⟨point, ⟨c, isPoint, rfl⟩, b, back, rfl⟩ := Language.mem_mul.mp pointed
      refine ⟨.inr ⟨[], nil_mem_any, b, back.2, by rw [eq_point isPoint]; rfl⟩, ?_⟩
      rw [List.any_append, any_of_mem_some back, Bool.or_true]
  · rintro ⟨digits | ⟨a, front, b, back, rfl⟩, found⟩
    · have more : w ≠ [] := by
        rintro rfl
        cases found
      exact .inl (Language.mem_mul.mpr ⟨w, ⟨more, digits⟩, [], .inl rfl, List.append_nil w⟩)
    · by_cases none : a = []
      · subst none
        have noDigit : radix.isDigit '.' = false := plain.digit '.' (by decide)
        have more : b ≠ [] := by
          rintro rfl
          simp [noDigit] at found
        exact .inr (cons_mem_one_mul rfl ⟨more, back⟩)
      · exact .inl (Language.append_mem_mul ⟨none, front⟩ (.inr (cons_mem_one_mul rfl back)))

/-- What a mantissa is read as, and what is left, which does not go on with a digit. -/
theorem mantissa_taken (radix : Radix) (s : List Char) :
    (mantissa radix s).taken ∈ looseMantissas radix ∧
      (mantissa radix s).complete = (mantissa radix s).taken.any radix.isDigit := by
  rcases optional_cases isPoint (s.dropWhile radix.isDigit) with
    ⟨c, rest, -, isPoint, pointed⟩ | ⟨-, pointed⟩
  · have read : mantissa radix s = Part.require ⟨s.takeWhile radix.isDigit ++ ([c] ++
        rest.takeWhile radix.isDigit), rest.dropWhile radix.isDigit, true⟩
        ((s.takeWhile radix.isDigit ++
          ([c] ++ rest.takeWhile radix.isDigit)).any radix.isDigit) := by
      simp [mantissa, Part.run, Part.andThen, Part.push, pointed]
    rw [read]
    refine ⟨mem_looseMantissas.mpr (.inr ⟨_, takeWhile_mem _ s, _, takeWhile_mem _ rest, ?_⟩), ?_⟩
    · rw [eq_point isPoint]
      rfl
    · exact Bool.true_and _
  · have read : mantissa radix s = Part.require ⟨s.takeWhile radix.isDigit ++
        (s.dropWhile radix.isDigit).takeWhile radix.isDigit,
        (s.dropWhile radix.isDigit).dropWhile radix.isDigit, true⟩
        ((s.takeWhile radix.isDigit ++
          (s.dropWhile radix.isDigit).takeWhile radix.isDigit).any radix.isDigit) := by
      simp [mantissa, Part.run, Part.andThen, Part.push, pointed, Part.nothing]
    rw [read]
    exact ⟨mem_looseMantissas.mpr (.inl (append_mem_any (takeWhile_mem _ s) (takeWhile_mem _ _))),
      Bool.true_and _⟩

/-- A mantissa is read up to where it ends. -/
theorem mantissa_append (plain : IsPlain radix) (h : w ∈ looseMantissas radix)
    (stops : Stops radix.isDigit y) (point : w.any isPoint = false → Stops isPoint y) :
    mantissa radix (w ++ y) = ⟨w, y, w.any radix.isDigit⟩ := by
  have noDigit : radix.isDigit '.' = false := plain.digit '.' (by decide)
  have whole (p : Part) (same : p = ⟨w, y, true⟩)
      (read : mantissa radix (w ++ y) = p.require (p.taken.any radix.isDigit)) :
      mantissa radix (w ++ y) = ⟨w, y, w.any radix.isDigit⟩ := by
    rw [read, same, Part.require, Bool.true_and]
  rcases mem_looseMantissas.mp h with digits | ⟨a, front, b, back, rfl⟩
  · have noPoint : w.any isPoint = false := plain.noPoint digits
    refine whole _ ?_ rfl
    have empty := run_append nil_mem_any stops
    rw [List.nil_append] at empty
    rw [run_append digits stops, andThen_mk, optional_of_stops (point noPoint), Part.push,
      Part.nothing, andThen_mk, empty]
    simp [Part.push]
  · refine whole _ ?_ rfl
    have opening : Stops radix.isDigit ('.' :: (b ++ y)) := stops_cons.mpr noDigit
    have isPoint : isPoint '.' := rfl
    rw [List.append_assoc, List.cons_append, run_append front opening, andThen_mk,
      optional_cons isPoint, Part.push, andThen_mk, run_append back stops]
    simp [Part.push]

end Mantissas

section Recognizers

/-- What is taken whole is one of the words, and whatever is taken begins one of all of them. -/
def Recognizes (recognize : List Char → Part) (words all : Language Char) : Prop :=
  ∀ s, ((recognize s).complete → (recognize s).taken ∈ words) ∧ (recognize s).taken ∈ fronts all

variable {first second : List Char → Part} {words words' all all' : Language Char}

/-- What is read second may depend on what was taken first. -/
theorem Recognizes.andThenOf (h : Recognizes first words all) (next : List Char → List Char → Part)
    (g : ∀ taken, Recognizes (next taken) words' all') (le : ∀ w ∈ words, w ∈ all)
    (possible : ∃ w, w ∈ all') :
    Recognizes (fun s => (first s).andThen (next (first s).taken)) (words * words')
      (all * all') := by
  intro s
  change (((first s).andThen (next (first s).taken)).complete →
    ((first s).andThen (next (first s).taken)).taken ∈ words * words') ∧
      ((first s).andThen (next (first s).taken)).taken ∈ fronts (all * all')
  by_cases whole : (first s).complete
  · rw [Part.andThen_of_complete whole]
    have front := (h s).1 whole
    exact ⟨fun also => Language.append_mem_mul front ((g _ _).1 also),
      append_mem_fronts (le _ front) (g _ _).2⟩
  · rw [Part.andThen, if_neg whole]
    obtain ⟨w, mem⟩ := possible
    exact ⟨fun also => absurd also whole, fronts_mul (h s).2 mem⟩

theorem Recognizes.andThen (h : Recognizes first words all) (g : Recognizes second words' all')
    (le : ∀ w ∈ words, w ∈ all) (possible : ∃ w, w ∈ all') :
    Recognizes (fun s => (first s).andThen second) (words * words') (all * all') :=
  h.andThenOf (fun _ => second) (fun _ => g) le possible

theorem recognizes_optional (test : Char → Bool) :
    Recognizes (Part.optional test) (1 + one test) (1 + one test) := by
  intro s
  have word : (Part.optional test s).taken ∈ 1 + one test := by
    rcases optional_cases test s with ⟨c, rest, -, passes, read⟩ | ⟨-, read⟩
    · rw [read]
      exact .inr ⟨c, passes, rfl⟩
    · rw [read]
      exact .inl rfl
  exact ⟨fun _ => word, mem_fronts word⟩

theorem recognizes_noPoint : Recognizes noPoint 1 (1 + one isPoint) := by
  intro s
  refine ⟨fun whole => ?_, (recognizes_optional isPoint s).2⟩
  exact List.isEmpty_iff.mp (complete_require whole).2

theorem recognizes_someDigits : Recognizes someDigits (some isDigit) (some isDigit) := by
  intro s
  have word (more : s.takeWhile isDigit ≠ []) : s.takeWhile isDigit ∈ some isDigit :=
    ⟨more, takeWhile_mem isDigit s⟩
  refine ⟨fun whole => word ?_, ?_⟩
  · simpa [Part.run] using (complete_require whole).2
  · by_cases none : s.takeWhile isDigit = []
    · have zero : ['0'] ∈ some isDigit := ⟨List.cons_ne_nil _ _, by simp [isDigit]⟩
      rw [show (someDigits s).taken = [] from none]
      exact ⟨['0'], zero⟩
    · exact mem_fronts (word none)

/-- What can follow the letter of an exponent. -/
theorem recognizes_powerDigits : Recognizes powerDigits ((1 + one isSign) * some isDigit * 1)
    ((1 + one isSign) * some isDigit * (1 + one isPoint)) := by
  have digits : ∃ w, w ∈ some isDigit := ⟨['0'], List.cons_ne_nil _ _, by simp [isDigit]⟩
  have nothing : ∃ w, w ∈ 1 + one isPoint := ⟨[], nil_mem_one_add _⟩
  exact ((recognizes_optional isSign).andThen recognizes_someDigits (fun _ => id) digits).andThen
    recognizes_noPoint (fun _ => id) nothing

theorem recognizes_exponent (radix : Radix) : Recognizes (exponent radix) (1 + exponents radix)
    ((1 + exponents radix) * (1 + one isPoint)) := by
  intro s
  rcases optional_cases isPoint s with ⟨c, rest, rfl, point, read⟩ | ⟨-, read⟩
  · have stuck : exponent radix (c :: rest) = ⟨[c], rest, false⟩ := by
      simp [exponent, noPoint, read, Part.require, Part.andThen]
    rw [stuck]
    have word : [c] ∈ (1 + exponents radix) * (1 + one isPoint) :=
      Language.append_mem_mul (nil_mem_one_add _) (.inr ⟨c, point, rfl⟩)
    exact ⟨fun whole => (by cases whole), mem_fronts word⟩
  · have same : exponent radix s = power radix s := by
      simp [exponent, noPoint, read, Part.require, Part.andThen, Part.nothing, Part.push]
    rw [same, power_eq]
    rcases optional_cases radix.isExponentMark s with ⟨c, rest, rfl, mark, read⟩ | ⟨-, read⟩
    · obtain ⟨words, all⟩ := recognizes_powerDigits rest
      have same : (Part.optional radix.isExponentMark (c :: rest)).andThen
          (ifTaken powerDigits (Part.optional radix.isExponentMark (c :: rest)).taken) =
          (powerDigits rest).push [c] := by
        rw [read]
        rfl
      simp only [same]
      have power {w : List Char} (h : w ∈ (1 + one isSign) * some isDigit * 1) :
          [c] ++ w ∈ exponents radix := by
        rw [mul_one] at h
        rw [exponents, mul_assoc]
        exact cons_mem_one_mul mark h
      refine ⟨fun whole => .inr (power (words whole)), ?_⟩
      have begun := append_mem_fronts (show [c] ∈ one radix.isExponentMark from ⟨c, mark, rfl⟩) all
      refine fronts_mono (fun w word => ?_) begun
      rw [add_mul, exponents]
      simp only [mul_assoc] at word ⊢
      exact .inr word
    · simp only [read]
      exact ⟨fun _ => nil_mem_one_add _, mem_fronts
        (Language.append_mem_mul (nil_mem_one_add _) (nil_mem_one_add _))⟩

theorem recognizes_longMark :
    Recognizes longMark (1 + one isLongMark * one isLongMark)
      (1 + one isLongMark * one isLongMark) := by
  intro s
  rw [longMark_eq]
  rcases optional_cases isLongMark s with ⟨c, rest, rfl, mark, read⟩ | ⟨-, read⟩
  · rcases optional_cases isLongMark rest with ⟨d, others, rfl, also, again⟩ | ⟨-, again⟩
    · have word : [c, d] ∈ one isLongMark * one isLongMark :=
        cons_mem_one_mul mark ⟨d, also, rfl⟩
      have same : (Part.optional isLongMark (c :: d :: others)).andThen (ifTaken secondLongMark
          (Part.optional isLongMark (c :: d :: others)).taken) = ⟨[c, d], others, true⟩ := by
        rw [read]
        simp [ifTaken, secondLongMark, again, Part.andThen, Part.push, Part.require]
      simp only [same]
      exact ⟨fun _ => .inr word, mem_fronts (.inr word)⟩
    · have same : (Part.optional isLongMark (c :: rest)).andThen (ifTaken secondLongMark
          (Part.optional isLongMark (c :: rest)).taken) = ⟨[c], rest, false⟩ := by
        rw [read]
        simp [ifTaken, secondLongMark, again, Part.andThen, Part.push, Part.require, Part.nothing]
      simp only [same]
      exact ⟨fun whole => (by cases whole), [c], .inr (cons_mem_one_mul mark ⟨c, mark, rfl⟩)⟩
  · simp only [read]
    exact ⟨fun _ => nil_mem_one_add _, mem_fronts (nil_mem_one_add _)⟩

theorem recognizes_integerSuffix (dialect : Dialect) : Recognizes (integerSuffix dialect)
    (optional dialect.integerSuffixes suffixes) (optional dialect.integerSuffixes suffixes) := by
  have le : (1 + one isUnsignedMark) * (1 + one isLongMark * one isLongMark) =
      1 + suffixes := by
    simp only [suffixes, add_mul, mul_add, one_mul, mul_one, mul_assoc, add_assoc, add_left_comm]
  unfold integerSuffix optional
  split
  · have both := (recognizes_optional isUnsignedMark).andThen recognizes_longMark (fun _ => id)
      ⟨[], nil_mem_one_add _⟩
    rwa [le] at both
  · exact fun _ => ⟨fun _ => rfl, mem_fronts rfl⟩

theorem recognizes_imaginaryUnit (dialect : Dialect) : Recognizes (imaginaryUnit dialect)
    (optional dialect.imaginaryNumbers units) (optional dialect.imaginaryNumbers units) := by
  unfold imaginaryUnit optional
  split
  · exact recognizes_optional isImaginaryUnit
  · exact fun _ => ⟨fun _ => rfl, mem_fronts rfl⟩

theorem recognizes_suffixOf (dialect : Dialect) (isInteger : Bool) :
    Recognizes (suffixOf dialect isInteger) (optional dialect.integerSuffixes suffixes)
      (optional dialect.integerSuffixes suffixes) := fun s =>
  ⟨fun whole => (recognizes_integerSuffix dialect s).1 (complete_require whole).1,
    (recognizes_integerSuffix dialect s).2⟩

variable (dialect) in
/-- What can follow a mantissa and an exponent. -/
def endings : Language Char :=
  optional dialect.imaginaryNumbers units * optional dialect.integerSuffixes suffixes

theorem nil_mem_endings (dialect : Dialect) : [] ∈ endings dialect :=
  Language.append_mem_mul (nil_mem_optional _ _) (nil_mem_optional _ _)

theorem recognizes_unitAndSuffix (dialect : Dialect) (isInteger : Bool) :
    Recognizes (unitAndSuffix dialect isInteger) (endings dialect) (endings dialect) :=
  (recognizes_imaginaryUnit dialect).andThenOf
    (fun taken => suffixOf dialect (isInteger && taken.isEmpty))
    (fun _ => recognizes_suffixOf dialect _) (fun _ => id) ⟨[], nil_mem_optional _ _⟩

theorem recognizes_behindMantissa (dialect : Dialect) (radix : Radix) (digits : List Char) :
    Recognizes (behindMantissa dialect radix digits) ((1 + exponents radix) * endings dialect)
      ((1 + exponents radix) * (1 + one isPoint) * endings dialect) :=
  (recognizes_exponent radix).andThenOf
    (fun taken => unitAndSuffix dialect (!digits.any isPoint && taken.isEmpty))
    (fun _ => recognizes_unitAndSuffix dialect _)
    (fun w word => Language.mem_mul.mpr ⟨w, word, [], nil_mem_one_add _, List.append_nil w⟩)
    ⟨[], nil_mem_endings dialect⟩

theorem permittedIn_eq (dialect : Dialect) (radix : Radix) (l : Language Char) :
    permittedIn dialect radix l =
      l * ((1 + exponents radix) * (1 + one isPoint) * endings dialect) := by
  simp only [permittedIn, endings, mul_assoc]

/-- Whatever is taken of a number begins one that is permitted. -/
theorem numberIn_taken {l : Language Char} (h : (mantissa radix s).taken ∈ l) :
    (numberIn dialect radix s).taken ∈ fronts (permittedIn dialect radix l) := by
  have nothing : [] ∈ (1 + exponents radix) * (1 + one isPoint) * endings dialect :=
    Language.append_mem_mul (Language.append_mem_mul (nil_mem_one_add _) (nil_mem_one_add _))
      (nil_mem_endings dialect)
  rw [permittedIn_eq, numberIn_eq]
  by_cases whole : (mantissa radix s).complete
  · simp only [Part.andThen_of_complete whole]
    exact append_mem_fronts h (recognizes_behindMantissa dialect radix _ _).2
  · simp only [Part.andThen, if_neg whole]
    exact fronts_mul (mem_fronts h) nothing

end Recognizers

section Numbers

/-- A mantissa without a point is digits only. -/
theorem mem_any_of_noPoint (h : w ∈ looseMantissas radix) (noPoint : w.any isPoint = false) :
    w ∈ any radix.isDigit := by
  rcases mem_looseMantissas.mp h with digits | ⟨a, -, b, -, rfl⟩
  · exact digits
  · simp [isPoint] at noPoint

theorem mem_some_of_noPoint (plain : IsPlain radix) (h : w ∈ mantissas radix)
    (noPoint : w.any isPoint = false) : w ∈ some radix.isDigit := by
  obtain ⟨loose, found⟩ := (mem_mantissas plain).mp h
  refine ⟨?_, mem_any_of_noPoint loose noPoint⟩
  rintro rfl
  cases found

/-- What is taken whole is a number. -/
theorem numberIn_mem (plain : IsPlain radix) (whole : (numberIn dialect radix s).complete) :
    (numberIn dialect radix s).taken ∈ numbersIn dialect radix := by
  rw [numberIn_eq] at whole ⊢
  obtain ⟨ofDigits, ofBehind⟩ := Part.complete_andThen whole
  obtain ⟨ofExponent, ofEnding⟩ := Part.complete_andThen ofBehind
  obtain ⟨ofUnit, ofSuffix⟩ := Part.complete_andThen ofEnding
  obtain ⟨ofMarks, fits⟩ := complete_require ofSuffix
  simp only [Part.andThen_of_complete ofDigits, behindMantissa, Part.andThen_of_complete ofExponent,
    unitAndSuffix, Part.andThen_of_complete ofUnit, Part.push, suffixOf, Part.require]
  have digits : (mantissa radix s).taken ∈ mantissas radix :=
    (mem_mantissas plain).mpr ⟨(mantissa_taken radix s).1, (mantissa_taken radix s).2 ▸ ofDigits⟩
  have exponent := (recognizes_exponent radix _).1 ofExponent
  have unit := (recognizes_imaginaryUnit dialect _).1 ofUnit
  have suffix := (recognizes_integerSuffix dialect _).1 ofMarks
  simp only [Bool.or_eq_true, Bool.and_eq_true, Bool.not_eq_true', List.isEmpty_iff] at fits
  rcases fits with none | ⟨⟨noPoint, noExponent⟩, noUnit⟩
  · rw [none, List.append_nil, ← List.append_assoc]
    exact .inl (Language.append_mem_mul (Language.append_mem_mul digits exponent) unit)
  · rw [noExponent, noUnit, List.nil_append, List.nil_append]
    exact .inr (Language.append_mem_mul (mem_some_of_noPoint plain digits noPoint) suffix)

end Numbers

end LuaFrontend.Lexeme.Numeral
