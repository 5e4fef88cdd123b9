import LuaFrontend.Proofs.LexemeJoin
import Mathlib.Data.List.TakeWhile

set_option autoImplicit false

/-
A lexeme does not depend on what is cut off behind it: the same is taken, with the same outcome, and
what is left of the text is left of it. In particular a token is read from its own text alone.
-/

namespace LuaFrontend.Lexeme

namespace Part

/-- The part with this left behind it. -/
def leaving (p : Part) (left : List Char) : Part := { p with rest := left }

@[simp] theorem taken_leaving (p : Part) (left : List Char) : (p.leaving left).taken = p.taken := rfl

@[simp] theorem rest_leaving (p : Part) (left : List Char) : (p.leaving left).rest = left := rfl

@[simp] theorem complete_leaving (p : Part) (left : List Char) :
    (p.leaving left).complete = p.complete := rfl

theorem push_push (first second : List Char) (p : Part) :
    (p.push second).push first = p.push (first ++ second) := by
  simp only [push, List.append_assoc]

theorem andThen_of_incomplete {p : Part} (h : ¬ p.complete) (next : List Char → Part) :
    p.andThen next = p :=
  if_neg h

theorem taken_prefix_andThen (p : Part) (next : List Char → Part) :
    p.taken <+: (p.andThen next).taken := by
  unfold andThen
  split
  · exact List.prefix_append _ _
  · exact List.prefix_refl _

theorem andThen_push (p : Part) (taken : List Char) (next : List Char → Part) :
    (p.push taken).andThen next = (p.andThen next).push taken := by
  by_cases whole : p.complete
  · rw [andThen_of_complete whole, andThen_of_complete (p := p.push taken) whole, push_push]
    rfl
  · rw [andThen_of_incomplete whole, andThen_of_incomplete (by exact whole)]

theorem andThen_assoc (p : Part) (next further : List Char → Part) :
    (p.andThen next).andThen further = p.andThen fun s => (next s).andThen further := by
  by_cases whole : p.complete
  · rw [andThen_of_complete whole, andThen_of_complete whole, andThen_push]
  · rw [andThen_of_incomplete whole, andThen_of_incomplete whole, andThen_of_incomplete whole]

theorem andThen_nothing {p : Part} (whole : p.complete) : p.andThen nothing = p := by
  rw [andThen_of_complete whole, push, nothing, List.append_nil]
  exact congrArg (Part.mk p.taken p.rest) whole.symm

end Part

/-- The recognizer takes the same from a text that is cut somewhere behind what it takes, and finds
it as complete. -/
def Cuttable (recognize : List Char → Part) : Prop :=
  ∀ s t u, (recognize s).rest = t ++ u →
    recognize ((recognize s).taken ++ t) = (recognize s).leaving t

namespace Cuttable

variable {first second : List Char → Part}

theorem nothing : Cuttable Part.nothing := fun _ _ _ _ => rfl

theorem run (test : Char → Bool) : Cuttable (Part.run test) := by
  intro s t u rest
  have inside : ∀ c ∈ s.takeWhile test, test c := fun c member => List.mem_takeWhile_imp member
  have stops : t.takeWhile test = [] ∧ t.dropWhile test = t := by
    cases t with
    | nil => exact ⟨rfl, rfl⟩
    | cons c t =>
      have head := List.head?_dropWhile_not test s
      rw [show s.dropWhile test = c :: t ++ u from rest, List.cons_append, List.head?_cons] at head
      have other : test c = false := by simpa using head
      exact ⟨List.takeWhile_cons_of_neg (by simp [other]),
        List.dropWhile_cons_of_neg (by simp [other])⟩
  simp only [Part.run, Part.leaving]
  rw [List.takeWhile_append_of_pos inside, List.dropWhile_append_of_pos inside, stops.1, stops.2,
    List.append_nil]

theorem optional (test : Char → Bool) : Cuttable (Part.optional test) := by
  intro s t u rest
  cases s with
  | nil =>
    obtain ⟨rfl, -⟩ := List.append_eq_nil_iff.mp rest.symm
    rfl
  | cons c s =>
    by_cases passes : test c
    · simp [Part.optional, passes, Part.leaving]
    · simp only [Part.optional, passes, Part.nothing] at rest ⊢
      cases t with
      | nil => rfl
      | cons d t =>
        obtain ⟨rfl, -⟩ := List.cons.inj rest
        exact if_neg passes

/-- What is read second may depend on what was taken first. -/
theorem andThenOf (h : Cuttable first) (next : List Char → List Char → Part)
    (g : ∀ taken, Cuttable (next taken))
    (splits : ∀ taken s, (next taken s).text = s) :
    Cuttable fun s => (first s).andThen (next (first s).taken) := by
  intro s t u rest
  by_cases whole : (first s).complete
  · simp only [Part.andThen_of_complete whole] at rest ⊢
    have behind := splits (first s).taken (first s).rest
    rw [Part.text, show (next (first s).taken (first s).rest).rest = t ++ u from rest,
      ← List.append_assoc] at behind
    have cut := h s _ u behind.symm
    simp only [Part.push, List.append_assoc, cut]
    rw [Part.andThen_of_complete (by exact whole), Part.rest_leaving, Part.taken_leaving,
      g (first s).taken (first s).rest t u rest]
    rfl
  · simp only [Part.andThen_of_incomplete whole] at rest ⊢
    rw [h s t u rest, Part.andThen_of_incomplete (by exact whole)]

theorem andThen (h : Cuttable first) (g : Cuttable second) (splits : ∀ s, (second s).text = s) :
    Cuttable fun s => (first s).andThen second :=
  h.andThenOf (fun _ => second) (fun _ => g) fun _ => splits

theorem require (h : Cuttable first) (condition : List Char → Bool) :
    Cuttable fun s => (first s).require (condition (first s).taken) := by
  intro s t u rest
  have cut := h s t u rest
  simp only [show ((first s).require _).taken = (first s).taken from rfl, cut]
  rfl

end Cuttable

section Numbers

theorem cuttable_mantissa (radix : Radix) : Cuttable (mantissa radix) :=
  (((Cuttable.run radix.isDigit).andThen (.optional isPoint) (Part.text_optional _)).andThen
    (.run radix.isDigit) (Part.text_run _)).require (·.any radix.isDigit)

theorem cuttable_noPoint : Cuttable noPoint := (Cuttable.optional isPoint).require (·.isEmpty)

theorem cuttable_someDigits : Cuttable someDigits := (Cuttable.run isDigit).require (!·.isEmpty)

/-- What follows the letter of an exponent. -/
def powerDigits (s : List Char) : Part :=
  ((Part.optional isSign s).andThen someDigits).andThen noPoint

theorem text_powerDigits (s : List Char) : (powerDigits s).text = s := by
  rw [powerDigits, Part.text_andThen (text_noPoint _), Part.text_andThen (text_someDigits _),
    Part.text_optional]

theorem cuttable_powerDigits : Cuttable powerDigits :=
  ((Cuttable.optional isSign).andThen cuttable_someDigits text_someDigits).andThen
    cuttable_noPoint text_noPoint

/-- A recognizer that goes on only behind something. -/
def ifTaken (next : List Char → Part) (taken : List Char) : List Char → Part :=
  if taken.isEmpty then Part.nothing else next

theorem text_ifTaken {next : List Char → Part} (splits : ∀ s, (next s).text = s)
    (taken s : List Char) : (ifTaken next taken s).text = s := by
  unfold ifTaken
  split
  · rfl
  · exact splits s

theorem cuttable_ifTaken {next : List Char → Part} (h : Cuttable next) (taken : List Char) :
    Cuttable (ifTaken next taken) := by
  unfold ifTaken
  split
  · exact .nothing
  · exact h

theorem andThen_ifTaken {p : Part} (whole : p.complete) (next : List Char → Part) :
    p.andThen (ifTaken next p.taken) = if p.taken.isEmpty then p else p.andThen next := by
  unfold ifTaken
  split
  · exact Part.andThen_nothing whole
  · rfl

theorem power_eq (radix : Radix) : power radix = fun s =>
    (Part.optional radix.isExponentMark s).andThen
      (ifTaken powerDigits (Part.optional radix.isExponentMark s).taken) := by
  funext s
  have digits : powerDigits = fun s =>
      (Part.optional isSign s).andThen fun s => (someDigits s).andThen noPoint :=
    funext fun s => Part.andThen_assoc _ _ _
  rw [andThen_ifTaken (complete_optional _ s), power, digits]
  simp only [Part.andThen_assoc]

theorem cuttable_power (radix : Radix) : Cuttable (power radix) := by
  rw [power_eq]
  exact (Cuttable.optional _).andThenOf (ifTaken powerDigits)
    (cuttable_ifTaken cuttable_powerDigits) (text_ifTaken text_powerDigits)

theorem cuttable_exponent (radix : Radix) : Cuttable (exponent radix) :=
  cuttable_noPoint.andThen (cuttable_power radix) (text_power radix)

theorem cuttable_imaginaryUnit (dialect : Dialect) : Cuttable (imaginaryUnit dialect) := by
  unfold imaginaryUnit
  split
  · exact .optional isImaginaryUnit
  · exact .nothing

/-- The second letter of a long integer. -/
def secondLongMark (s : List Char) : Part :=
  (Part.optional isLongMark s).require !(Part.optional isLongMark s).taken.isEmpty

theorem longMark_eq : longMark = fun s => (Part.optional isLongMark s).andThen
    (ifTaken secondLongMark (Part.optional isLongMark s).taken) := by
  funext s
  rw [andThen_ifTaken (complete_optional _ s)]
  rfl

theorem cuttable_longMark : Cuttable longMark := by
  have second : Cuttable secondLongMark := (Cuttable.optional isLongMark).require (!·.isEmpty)
  have splits (s : List Char) : (secondLongMark s).text = s := Part.text_optional _ s
  rw [longMark_eq]
  exact (Cuttable.optional _).andThenOf (ifTaken secondLongMark) (cuttable_ifTaken second)
    (text_ifTaken splits)

theorem cuttable_integerSuffix (dialect : Dialect) : Cuttable (integerSuffix dialect) := by
  unfold integerSuffix
  split
  · exact (Cuttable.optional isUnsignedMark).andThen cuttable_longMark text_longMark
  · exact .nothing

/-- A suffix where only an integer may have one. -/
def suffixOf (dialect : Dialect) (isInteger : Bool) (s : List Char) : Part :=
  (integerSuffix dialect s).require ((integerSuffix dialect s).taken.isEmpty || isInteger)

/-- What follows the digits and the exponent of a number. -/
def unitAndSuffix (dialect : Dialect) (isInteger : Bool) (s : List Char) : Part :=
  (imaginaryUnit dialect s).andThen
    (suffixOf dialect (isInteger && (imaginaryUnit dialect s).taken.isEmpty))

/-- What follows the digits of a number. -/
def behindMantissa (dialect : Dialect) (radix : Radix) (digits s : List Char) : Part :=
  (exponent radix s).andThen
    (unitAndSuffix dialect (!digits.any isPoint && (exponent radix s).taken.isEmpty))

theorem text_suffixOf (dialect : Dialect) (isInteger : Bool) (s : List Char) :
    (suffixOf dialect isInteger s).text = s := text_integerSuffix dialect s

theorem text_unitAndSuffix (dialect : Dialect) (isInteger : Bool) (s : List Char) :
    (unitAndSuffix dialect isInteger s).text = s := by
  rw [unitAndSuffix, Part.text_andThen (text_suffixOf _ _ _), text_imaginaryUnit]

theorem text_behindMantissa (dialect : Dialect) (radix : Radix) (digits s : List Char) :
    (behindMantissa dialect radix digits s).text = s := by
  rw [behindMantissa, Part.text_andThen (text_unitAndSuffix _ _ _), text_exponent]

theorem numberIn_eq (dialect : Dialect) (radix : Radix) : numberIn dialect radix = fun s =>
    (mantissa radix s).andThen (behindMantissa dialect radix (mantissa radix s).taken) := rfl

theorem cuttable_numberIn (dialect : Dialect) (radix : Radix) :
    Cuttable (numberIn dialect radix) := by
  have suffix (isInteger : Bool) : Cuttable (suffixOf dialect isInteger) :=
    (cuttable_integerSuffix dialect).require (·.isEmpty || isInteger)
  have unit (isInteger : Bool) : Cuttable (unitAndSuffix dialect isInteger) :=
    (cuttable_imaginaryUnit dialect).andThenOf
      (fun taken => suffixOf dialect (isInteger && taken.isEmpty)) (fun _ => suffix _)
      fun _ => text_suffixOf dialect _
  have behind (digits : List Char) : Cuttable (behindMantissa dialect radix digits) :=
    (cuttable_exponent radix).andThenOf
      (fun taken => unitAndSuffix dialect (!digits.any isPoint && taken.isEmpty)) (fun _ => unit _)
      fun _ => text_unitAndSuffix dialect _
  rw [numberIn_eq]
  exact (cuttable_mantissa radix).andThenOf _ behind (text_behindMantissa dialect radix)

theorem cuttable_number (dialect : Dialect) : Cuttable (number dialect) := by
  intro s t u rest
  rcases hexadecimal_or_decimal s with ⟨mark, s', isMark, rfl⟩ | noMark
  · rw [number_of_hexadecimal isMark] at rest ⊢
    have cut := cuttable_numberIn dialect .hexadecimal s' t u rest
    simp only [Part.push, List.cons_append, List.nil_append, number_of_hexadecimal isMark, cut]
    rfl
  · have decimal (w : List Char) (front : w <+: s) :
        number dialect w = numberIn dialect .decimal w := by
      apply number_of_decimal
      rintro mark behind rfl
      obtain ⟨v, rfl⟩ := front
      exact noMark mark (behind ++ v) rfl
    rw [decimal s (List.prefix_refl s)] at rest ⊢
    have split := text_numberIn dialect .decimal s
    rw [Part.text, rest, ← List.append_assoc] at split
    rw [decimal _ ⟨u, split⟩]
    exact cuttable_numberIn dialect .decimal s t u rest

end Numbers

section Strings

theorem taken_ne_nil_of_quotedRest {quote : Char} {skipping : Bool} {s : List Char}
    (whole : (quotedRest quote skipping s).complete) :
    (quotedRest quote skipping s).taken ≠ [] := by
  fun_induction quotedRest quote skipping s with
  | case1 => cases whole
  | case2 => exact Part.taken_push_ne_nil (List.cons_ne_nil _ _) _
  | case3 => cases whole
  | case4 => exact List.cons_ne_nil _ _
  | case5 => cases whole
  | case6 => cases whole
  | case7 => exact Part.taken_push_ne_nil (List.cons_ne_nil _ _) _
  | case8 => exact Part.taken_push_ne_nil (List.cons_ne_nil _ _) _
  | case9 => exact Part.taken_push_ne_nil (List.cons_ne_nil _ _) _

theorem cuttable_quotedRest (quote : Char) (skipping : Bool) :
    Cuttable (quotedRest quote skipping) := by
  intro s t u rest
  fun_induction quotedRest quote skipping s with
  | case1 =>
    obtain ⟨rfl, -⟩ := List.append_eq_nil_iff.mp rest.symm
    rfl
  | case2 _ c s space ih =>
    simp only [Part.push, List.cons_append, List.nil_append]
    rw [quotedRest_cons, if_pos space, ih rest]
    rfl
  | case3 _ c s space ends =>
    cases t with
    | nil => rfl
    | cons d t =>
      obtain ⟨rfl, -⟩ := List.cons.inj rest
      rw [Part.missing, List.nil_append, quotedRest_cons, if_neg space, if_pos ends]
      rfl
  | case4 _ c s space other same =>
    rw [List.singleton_append, quotedRest_cons, if_neg space, if_neg other, if_pos same]
    rfl
  | case5 _ c space other inside escape =>
    obtain ⟨rfl, -⟩ := List.append_eq_nil_iff.mp rest.symm
    rw [List.append_nil, quotedRest_cons, if_neg space, if_neg other, if_neg inside, if_pos escape]
    rfl
  | case6 _ c space other inside escape a =>
    obtain ⟨rfl, -⟩ := List.append_eq_nil_iff.mp rest.symm
    rw [List.append_nil, quotedRest_cons, if_neg space, if_neg other, if_neg inside, if_pos escape]
    rfl
  | case7 _ c space other inside escape a b s pair ih =>
    simp only [Part.push, List.cons_append, List.nil_append]
    rw [quotedRest_cons, if_neg space, if_neg other, if_neg inside, if_pos escape]
    simp only [pair, if_true, ih rest]
    rfl
  | case8 _ c space other inside escape a b s single ih =>
    have cut := ih rest
    have split := text_quotedRest quote (a == 'z') (b :: s)
    rw [Part.text, show (quotedRest quote (a == 'z') (b :: s)).rest = t ++ u from rest,
      ← List.append_assoc] at split
    simp only [Part.push, List.cons_append, List.nil_append]
    rw [quotedRest_cons, if_neg space, if_neg other, if_neg inside, if_pos escape]
    -- Behind an escaped character a text may be cut only if the string is broken off there.
    cases again : (quotedRest quote (a == 'z') (b :: s)).taken ++ t with
    | nil =>
      obtain ⟨none, rfl⟩ := List.append_eq_nil_iff.mp again
      have broken : ¬ (quotedRest quote (a == 'z') (b :: s)).complete :=
        fun whole => taken_ne_nil_of_quotedRest whole none
      simp [Part.leaving, none, broken]
    | cons d w =>
      rw [again] at cut split
      obtain ⟨rfl, -⟩ := List.cons.inj split
      simp only [single, cut]
      rfl
  | case9 _ c s space other inside escape ih =>
    simp only [Part.push, List.cons_append, List.nil_append]
    rw [quotedRest_cons, if_neg space, if_neg other, if_neg inside, if_neg escape, ih rest]
    rfl

theorem cuttable_quoted : Cuttable quoted := by
  intro s t u rest
  cases s with
  | nil =>
    obtain ⟨rfl, -⟩ := List.append_eq_nil_iff.mp rest.symm
    rfl
  | cons quote s =>
    have cut := cuttable_quotedRest quote false s t u rest
    simp only [quoted, Part.push, List.cons_append, List.nil_append, cut]
    rfl

end Strings

section Brackets

theorem cuttable_through {close : List Char} (some : close ≠ []) : Cuttable (through close) := by
  intro s t u rest
  induction s with
  | nil =>
    obtain ⟨rfl, -⟩ := List.append_eq_nil_iff.mp rest.symm
    rfl
  | cons c s ih =>
    rw [through] at rest ⊢
    by_cases closes : close.isPrefixOf (c :: s)
    · obtain ⟨behind, split⟩ := List.isPrefixOf_iff_prefix.mp closes
      rw [if_pos closes] at rest ⊢
      simp only [← split, List.take_left, List.drop_left] at rest ⊢
      obtain ⟨d, close', rfl⟩ := List.exists_cons_of_ne_nil some
      rw [List.cons_append, through, ← List.cons_append,
        if_pos (List.isPrefixOf_iff_prefix.mpr (List.prefix_append _ _)), List.take_left,
        List.drop_left]
      rfl
    · rw [if_neg closes] at rest ⊢
      have cut := ih rest
      -- What closes nothing in the whole text closes nothing in a part of it.
      have front : c :: ((through close s).taken ++ t) <+: c :: s := by
        have split := text_through close s
        rw [Part.text, show (through close s).rest = t ++ u from rest, ← List.append_assoc] at split
        exact List.prefix_cons_inj c |>.mpr ⟨u, split⟩
      have open_ : ¬ close.isPrefixOf (c :: ((through close s).taken ++ t)) := by
        rw [List.isPrefixOf_iff_prefix] at closes ⊢
        exact fun inside => closes (inside.trans front)
      simp only [Part.push, List.cons_append, List.nil_append]
      rw [through, if_neg open_, cut]
      rfl

theorem cuttable_brokenOpening : Cuttable brokenOpening := by
  intro s t u rest
  cases s with
  | nil =>
    obtain ⟨rfl, -⟩ := List.append_eq_nil_iff.mp rest.symm
    rfl
  | cons c s =>
    have cut := Cuttable.run isEqualsSign s t u rest
    simp only [brokenOpening, Part.require, Part.push, List.cons_append, List.nil_append, cut]
    rfl

theorem openingLevel?_eq_some {s : List Char} {level : Nat} :
    openingLevel? s = some level ↔ opening level <+: s := by
  have signs (t : List Char) : (List.replicate level '=' ++ '[' :: t).dropWhile isEqualsSign =
      '[' :: t := by
    rw [List.dropWhile_append_of_pos fun c member => by
      rw [List.eq_of_mem_replicate member]
      rfl]
    rfl
  constructor
  · intro h
    unfold openingLevel? at h
    split at h
    · next s =>
      split at h
      · next t found =>
        obtain rfl := Option.some.inj h
        have run : s.takeWhile isEqualsSign =
            List.replicate (s.takeWhile isEqualsSign).length '=' := by
          rw [List.eq_replicate_iff]
          exact ⟨rfl, fun c member => by
            simpa [isEqualsSign] using List.mem_takeWhile_imp member⟩
        have split := List.takeWhile_append_dropWhile (p := isEqualsSign) (l := s)
        rw [found] at split
        refine ⟨t, ?_⟩
        rw [opening, ← run, List.append_assoc, List.cons_append, List.singleton_append, split]
      · cases h
    · cases h
  · rintro ⟨t, rfl⟩
    simp only [opening, List.cons_append, List.append_assoc, List.nil_append, openingLevel?, signs]
    rw [List.takeWhile_append_of_pos fun c member => by
      rw [List.eq_of_mem_replicate member]
      rfl]
    simp [isEqualsSign]

/-- The front of a text opens a long bracket if the text does, unless it is cut inside. -/
theorem openingLevel?_of_front {s w : List Char} (front : w <+: s) {level : Nat}
    (h : openingLevel? w = some level) : openingLevel? s = some level :=
  openingLevel?_eq_some.mpr ((openingLevel?_eq_some.mp h).trans front)

theorem openingLevel?_none_of_front {s w : List Char} (front : w <+: s)
    (h : openingLevel? s = none) : openingLevel? w = none := by
  by_contra some
  obtain ⟨level, some⟩ := Option.ne_none_iff_exists'.mp some
  cases h.symm.trans (openingLevel?_of_front front some)

theorem bracketed_append (level : Nat) (s : List Char) :
    bracketed level (opening level ++ s) = (through (closing level) s).push (opening level) := by
  rw [bracketed, List.take_left, List.drop_left]

/-- A long bracket of some level, where one opens. -/
theorem bracketed_cut {s t u : List Char} {level : Nat} (opens : openingLevel? s = some level)
    (rest : (bracketed level s).rest = t ++ u) :
    openingLevel? ((bracketed level s).taken ++ t) = some level ∧
      bracketed level ((bracketed level s).taken ++ t) = (bracketed level s).leaving t := by
  obtain ⟨behind, rfl⟩ := openingLevel?_eq_some.mp opens
  rw [bracketed_append] at rest ⊢
  have some : closing level ≠ [] := List.cons_ne_nil _ _
  have cut := cuttable_through some behind t u rest
  simp only [Part.push, List.append_assoc]
  refine ⟨openingLevel?_eq_some.mpr (List.prefix_append _ _), ?_⟩
  rw [bracketed_append, cut]
  rfl

end Brackets

/-- The lexeme with this left behind it. -/
def Reading.leaving (r : Reading) (left : List Char) : Reading := { r with rest := left }

/-- A lexeme that the reader gives is given again where the text is cut behind it. -/
def LexemesCuttable (reader : List Char → Reading) : Prop :=
  ∀ s t u, (reader s).rest = t ++ u → reader ((reader s).taken ++ t) = (reader s).leaving t

theorem Cuttable.lexemes {recognize : List Char → Part} (h : Cuttable recognize)
    (kind : TokenKind) (fault : Fault) :
    LexemesCuttable fun s => .ofPart (recognize s) kind fault := by
  intro s t u rest
  change Reading.ofPart (recognize ((recognize s).taken ++ t)) kind fault = _
  rw [h s t u rest]
  rfl

theorem readName_cut (dialect : Dialect) : LexemesCuttable (readName dialect) := by
  intro s t u rest
  have cut := Cuttable.run (isNamePart dialect.extendedIdentifiers) s t u rest
  simp only [Part.run, Part.leaving, Part.mk.injEq] at cut
  simp only [readName, Reading.leaving]
  rw [cut.1, cut.2.1]

theorem readLongString_cut : LexemesCuttable readLongString := by
  intro s t u rest
  cases opens : openingLevel? s with
  | some level =>
    simp only [readLongString, opens] at rest ⊢
    obtain ⟨again, cut⟩ := bracketed_cut opens rest
    simp only [Reading.ofPart, again, cut]
    rfl
  | none =>
    simp only [readLongString, opens] at rest ⊢
    have split := text_brokenOpening s
    rw [Part.text, show (brokenOpening s).rest = t ++ u from rest, ← List.append_assoc] at split
    simp only [Reading.ofPart, openingLevel?_none_of_front ⟨u, split⟩ opens,
      cuttable_brokenOpening s t u rest]
    rfl

theorem readComment_cut {s t u : List Char} (rest : (readComment s).rest = t ++ u) :
    readComment (((readComment s).taken ++ t).drop 2) = (readComment s).leaving t := by
  cases opens : openingLevel? s with
  | some level =>
    simp only [readComment, opens] at rest ⊢
    obtain ⟨again, cut⟩ := bracketed_cut opens rest
    simp only [Reading.ofPart, Part.push, List.cons_append, List.nil_append, List.drop_succ_cons,
      List.drop_zero, again, cut]
    rfl
  | none =>
    simp only [readComment, opens] at rest ⊢
    have cut := Cuttable.run (!isLineBreak ·) s t u rest
    -- In a part of the text no long bracket opens either.
    have split := text_lineComment s
    rw [Part.text, show (lineComment s).rest = t ++ u from rest, ← List.append_assoc] at split
    simp only [Reading.ofPart, Part.push, List.cons_append, List.nil_append, List.drop_succ_cons,
      List.drop_zero, openingLevel?_none_of_front ⟨u, split⟩ opens]
    simp only [lineComment, cut]
    rfl

theorem exists_of_start_longBracket {dialect : Dialect} {s : List Char}
    (h : start dialect s = .longBracket) :
    ∃ d behind, s = '[' :: d :: behind ∧ (d = '[' ∨ d = '=') := by
  unfold start at h
  repeat' split at h
  all_goals try cases h
  next c s _ _ _ _ bracket =>
    rw [Bool.and_eq_true, beq_iff_eq] at bracket
    obtain ⟨rfl, second⟩ := bracket
    cases s with
    | nil => cases second
    | cons d s => exact ⟨d, s, rfl, by simpa using second⟩

/-- A long bracket shows in its second sign, which is taken. -/
theorem two_le_of_longBracket {dialect : Dialect} {s : List Char}
    (begins : start dialect s = .longBracket) : 2 ≤ (readLongString s).taken.length := by
  cases opens : openingLevel? s with
  | some level =>
    obtain ⟨behind, same⟩ := openingLevel?_eq_some.mp opens
    simp only [readLongString, opens, Reading.ofPart]
    rw [← same, bracketed_append]
    simp only [Part.push, opening, List.length_append, List.length_cons]
    omega
  | none =>
    obtain ⟨d, behind, rfl, sign⟩ := exists_of_start_longBracket begins
    rcases sign with rfl | rfl
    · cases opens
    · simp [readLongString, opens, Reading.ofPart, brokenOpening, Part.require, Part.push, Part.run,
        isEqualsSign]

theorem exists_of_start_point {dialect : Dialect} {s : List Char}
    (h : start dialect ('.' :: s) = .number) : ∃ d behind, s = d :: behind ∧ isDigit d := by
  have none : isDigit '.' = false := by decide
  simp only [start] at h
  repeat' split at h
  all_goals try cases h
  next number =>
    cases s with
    | nil => simp [none] at number
    | cons d s => exact ⟨d, s, rfl, by simpa [none] using number⟩

/-- A number that begins with a point shows in the digit behind it, which is taken. -/
theorem two_le_of_point {dialect : Dialect} {s : List Char}
    (begins : start dialect ('.' :: s) = .number) :
    2 ≤ (number dialect ('.' :: s)).taken.length := by
  obtain ⟨d, behind, rfl, digit⟩ := exists_of_start_point begins
  rw [number_of_decimal (by rintro _ _ ⟨⟩), numberIn_eq]
  have none : isDigit '.' = false := by decide
  have digits : 2 ≤ (mantissa .decimal ('.' :: d :: behind)).taken.length := by
    simp [mantissa, Part.run, Part.andThen, Part.optional, Part.push, Part.require, Radix.decimal,
      isPoint, digit, none]
  exact digits.trans (Part.taken_prefix_andThen _ _).length_le

/-- The same symbol is found in a part of the text that holds it. -/
theorem symbol?_of_front {dialect : Dialect} {s w symbol : List Char} (front : w <+: s)
    (found : symbol? dialect s = some symbol) (inside : symbol <+: w) :
    symbol? dialect w = some symbol := by
  obtain ⟨-, before, behind, split, none⟩ := List.find?_eq_some_iff_append.mp found
  refine List.find?_eq_some_iff_append.mpr
    ⟨List.isPrefixOf_iff_prefix.mpr inside, before, behind, split, fun other member => ?_⟩
  have missing := none other member
  simp only [Bool.not_eq_eq_eq_not, Bool.not_true, ← Bool.not_eq_true,
    List.isPrefixOf_iff_prefix] at missing ⊢
  exact fun fits => missing (fits.trans front)

/-- What is no symbol in the whole text is none in a part of it. -/
theorem symbol?_none_of_front {dialect : Dialect} {s w : List Char} (front : w <+: s)
    (h : symbol? dialect s = none) : symbol? dialect w = none := by
  refine List.find?_eq_none.mpr fun symbol member => ?_
  have missing := List.find?_eq_none.mp h symbol member
  rw [List.isPrefixOf_iff_prefix] at missing ⊢
  exact fun fits => missing (fits.trans front)

theorem readSymbol_cut (dialect : Dialect) : LexemesCuttable (readSymbol dialect) := by
  intro s t u rest
  cases s with
  | nil =>
    obtain ⟨rfl, -⟩ := List.append_eq_nil_iff.mp rest.symm
    rfl
  | cons c s =>
    have split := text_readSymbol dialect (c :: s)
    rw [Reading.text, rest, ← List.append_assoc] at split
    simp only [readSymbol] at rest split ⊢
    cases found : symbol? dialect (c :: s) with
    | none =>
      simp only [found] at split ⊢
      rw [List.singleton_append] at split ⊢
      simp only [symbol?_none_of_front ⟨u, split⟩ found]
      rfl
    | some symbol =>
      simp only [found] at split ⊢
      have again := symbol?_of_front ⟨u, split⟩ found (List.prefix_append symbol t)
      obtain ⟨d, symbol, rfl⟩ : ∃ d rest, symbol = d :: rest := by
        apply List.exists_cons_of_ne_nil
        rintro rfl
        have member := List.mem_of_find?_eq_some found
        simp [symbols] at member
      rw [List.cons_append] at again ⊢
      simp only [again]
      rw [← List.cons_append, List.drop_left]
      rfl

/-- The first character decides how the text starts, except where it takes a second one to begin a
number, a comment or a long bracket. -/
theorem start_cons (dialect : Dialect) (c : Char) (s : List Char) :
    start dialect [c] = start dialect (c :: s) ∨ start dialect (c :: s) = .comment ∨
      start dialect (c :: s) = .longBracket ∨ start dialect (c :: s) = .number ∧ c = '.' := by
  simp only [start]
  repeat' split
  all_goals simp_all

theorem start_of_front {dialect : Dialect} {s w : List Char} (front : w <+: s) (some : w ≠ [])
    (long : w.length < 2 → start dialect s ≠ .comment ∧ start dialect s ≠ .longBracket ∧
      (start dialect s = .number → w ≠ ['.'])) :
    start dialect w = start dialect s := by
  obtain ⟨behind, rfl⟩ := front
  match w with
  | [c] =>
    obtain ⟨noComment, noBracket, noNumber⟩ := long (Nat.lt_succ_self 1)
    obtain same | comment | bracket | ⟨number, rfl⟩ := start_cons dialect c behind
    · exact same
    · exact absurd comment noComment
    · exact absurd bracket noBracket
    · exact absurd rfl (noNumber number)
  | c :: d :: w => rfl

/-- What a start is read by cuts lexemes for `read` too, if it takes enough to show the start. -/
theorem read_cut_of_reader {dialect : Dialect} {reader : List Char → Reading} {s : List Char}
    (reads : ∀ w, start dialect w = start dialect s → read dialect w = reader w)
    (cuttable : LexemesCuttable reader) {t u : List Char} (some : (read dialect s).taken ≠ [])
    (rest : (read dialect s).rest = t ++ u)
    (long : (reader s).taken.length < 2 →
      start dialect s ≠ .comment ∧ start dialect s ≠ .longBracket ∧
        (start dialect s = .number → (reader s).taken ++ t ≠ ['.'])) :
    read dialect ((read dialect s).taken ++ t) = (read dialect s).leaving t := by
  have split := text_read dialect s
  rw [Reading.text, rest, ← List.append_assoc] at split
  rw [reads s rfl] at some rest split ⊢
  have again := start_of_front ⟨u, split⟩ (List.append_ne_nil_of_left_ne_nil some t) fun short =>
    long (Nat.lt_of_le_of_lt (by simp) short)
  rw [reads _ again]
  exact cuttable s t u rest

/-- A lexeme is read again from a text that is cut somewhere behind it. -/
theorem read_cut (dialect : Dialect) : LexemesCuttable (read dialect) := by
  intro s t u rest
  by_cases empty : s = []
  · subst empty
    obtain ⟨rfl, -⟩ := List.append_eq_nil_iff.mp rest.symm
    rfl
  have some := taken_read_ne_nil dialect empty
  cases begins : start dialect s with
  | name =>
    have reads w (same : start dialect w = start dialect s) :
        read dialect w = readName dialect w := by rw [read, same, begins]
    exact read_cut_of_reader reads (readName_cut dialect) some rest fun _ => by simp [begins]
  | quote =>
    have reads w (same : start dialect w = start dialect s) :
        read dialect w = .ofPart (quoted w) .string .unfinishedString := by rw [read, same, begins]
    exact read_cut_of_reader reads (cuttable_quoted.lexemes _ _) some rest fun _ => by
      simp [begins]
  | number =>
    have reads w (same : start dialect w = start dialect s) :
        read dialect w = .ofPart (number dialect w) .number .malformedNumber := by
      rw [read, same, begins]
    have cuttable := (cuttable_number dialect).lexemes .number .malformedNumber
    refine read_cut_of_reader reads cuttable some rest fun short => ?_
    refine ⟨by simp [begins], by simp [begins], fun _ alone => ?_⟩
    -- A point alone is no number.
    have split := text_number dialect s
    rw [reads s rfl] at rest
    rw [Part.text, show (number dialect s).rest = t ++ u from rest, ← List.append_assoc,
      show (number dialect s).taken ++ t = ['.'] from alone, List.singleton_append] at split
    rw [← split] at begins short
    exact absurd short (Nat.not_lt.mpr (two_le_of_point begins))
  | comment =>
    have reads w (same : start dialect w = start dialect s) :
        read dialect w = readComment (w.drop 2) := by rw [read, same, begins]
    exact read_cut_of_reader reads (fun _ _ _ => readComment_cut) some rest fun short =>
      absurd short (Nat.not_lt.mpr (Nat.le_add_left 2 _))
  | longBracket =>
    have reads w (same : start dialect w = start dialect s) :
        read dialect w = readLongString w := by rw [read, same, begins]
    exact read_cut_of_reader reads readLongString_cut some rest fun short =>
      absurd short (Nat.not_lt.mpr (two_le_of_longBracket begins))
  | symbol =>
    have reads w (same : start dialect w = start dialect s) :
        read dialect w = readSymbol dialect w := by rw [read, same, begins]
    exact read_cut_of_reader reads (readSymbol_cut dialect) some rest fun _ => by
      simp [begins]

/-- A token is read from its own text alone. -/
theorem read_taken {dialect : Dialect} {s : List Char} {kind : TokenKind}
    (ok : (read dialect s).outcome = .ok kind) :
    read dialect (read dialect s).taken = ⟨(read dialect s).taken, [], .ok kind⟩ := by
  have cut := read_cut dialect s [] (read dialect s).rest rfl
  rw [List.append_nil] at cut
  rw [cut, Reading.leaving, ok]

end LuaFrontend.Lexeme
