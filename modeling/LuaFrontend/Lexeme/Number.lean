import LuaFrontend.Lexeme.Part
import LuaFrontend.Options
import LuaFrontend.Source.Class

set_option autoImplicit false

namespace LuaFrontend.Lexeme

/-- The characters that one kind of number is made of. -/
structure Radix where
  isDigit : Char → Bool
  isExponentMark : Char → Bool

namespace Radix

def decimal : Radix := ⟨LuaFrontend.isDigit, fun c => c == 'e' || c == 'E'⟩

def hexadecimal : Radix := ⟨isHexDigit, fun c => c == 'p' || c == 'P'⟩

end Radix

def isPoint (c : Char) : Bool := c == '.'

def isSign (c : Char) : Bool := c == '+' || c == '-'

def isHexMark (c : Char) : Bool := c == 'x' || c == 'X'

def isImaginaryUnit (c : Char) : Bool := c == 'i' || c == 'I'

def isUnsignedMark (c : Char) : Bool := c == 'u' || c == 'U'

def isLongMark (c : Char) : Bool := c == 'l' || c == 'L'

/-- Digits with at most one point among them. There has to be a digit. -/
def mantissa (radix : Radix) (s : List Char) : Part :=
  let digits := ((Part.run radix.isDigit s).andThen (Part.optional isPoint)).andThen
    (Part.run radix.isDigit)
  digits.require (digits.taken.any radix.isDigit)

/-- No further point may follow; if one does, it is taken. -/
def noPoint (s : List Char) : Part :=
  let point := Part.optional isPoint s
  point.require point.taken.isEmpty

/-- At least one decimal digit. -/
def someDigits (s : List Char) : Part :=
  let digits := Part.run isDigit s
  digits.require !digits.taken.isEmpty

/-- A letter, a sign or none, and digits; or nothing at all. -/
def power (radix : Radix) (s : List Char) : Part :=
  let mark := Part.optional radix.isExponentMark s
  if mark.taken.isEmpty then mark
  else ((mark.andThen (Part.optional isSign)).andThen someDigits).andThen noPoint

/-- The exponent, if there is one. Either way no point may follow. -/
def exponent (radix : Radix) (s : List Char) : Part := (noPoint s).andThen (power radix)

def imaginaryUnit (dialect : Dialect) (s : List Char) : Part :=
  if dialect.imaginaryNumbers then Part.optional isImaginaryUnit s else Part.nothing s

/-- Two letters that mark a long integer, or none; a single one is incomplete. -/
def longMark (s : List Char) : Part :=
  let first := Part.optional isLongMark s
  if first.taken.isEmpty then first
  else first.andThen fun s =>
    let second := Part.optional isLongMark s
    second.require !second.taken.isEmpty

def integerSuffix (dialect : Dialect) (s : List Char) : Part :=
  if dialect.integerSuffixes then (Part.optional isUnsignedMark s).andThen longMark
  else Part.nothing s

/-- A number in one radix. An integer suffix is for numbers without point, exponent and unit. -/
def numberIn (dialect : Dialect) (radix : Radix) (s : List Char) : Part :=
  let digits := mantissa radix s
  digits.andThen fun s =>
    let exponent := exponent radix s
    exponent.andThen fun s =>
      let unit := imaginaryUnit dialect s
      unit.andThen fun s =>
        let suffix := integerSuffix dialect s
        let isInteger := !digits.taken.any isPoint && exponent.taken.isEmpty && unit.taken.isEmpty
        suffix.require (suffix.taken.isEmpty || isInteger)

/-- A number. `0x` in front makes it hexadecimal. -/
def number (dialect : Dialect) : List Char → Part
  | '0' :: mark :: s =>
    if isHexMark mark then (numberIn dialect .hexadecimal s).push ['0', mark]
    else numberIn dialect .decimal ('0' :: mark :: s)
  | s => numberIn dialect .decimal s

theorem text_mantissa (radix : Radix) (s : List Char) : (mantissa radix s).text = s := by
  simp only [mantissa, Part.text_require]
  rw [Part.text_andThen (by simp), Part.text_andThen (by simp), Part.text_run]

theorem text_noPoint (s : List Char) : (noPoint s).text = s := by
  simp only [noPoint, Part.text_require, Part.text_optional]

theorem text_someDigits (s : List Char) : (someDigits s).text = s := by
  simp only [someDigits, Part.text_require, Part.text_run]

theorem text_power (radix : Radix) (s : List Char) : (power radix s).text = s := by
  simp only [power]
  split
  · exact Part.text_optional _ s
  · rw [Part.text_andThen (text_noPoint _), Part.text_andThen (text_someDigits _),
      Part.text_andThen (Part.text_optional _ _), Part.text_optional]

theorem text_exponent (radix : Radix) (s : List Char) : (exponent radix s).text = s := by
  rw [exponent, Part.text_andThen (text_power _ _), text_noPoint]

theorem text_imaginaryUnit (dialect : Dialect) (s : List Char) :
    (imaginaryUnit dialect s).text = s := by
  unfold imaginaryUnit
  split <;> simp

theorem text_longMark (s : List Char) : (longMark s).text = s := by
  simp only [longMark]
  split
  · exact Part.text_optional _ s
  · rw [Part.text_andThen (by rw [Part.text_require, Part.text_optional]), Part.text_optional]

theorem text_integerSuffix (dialect : Dialect) (s : List Char) :
    (integerSuffix dialect s).text = s := by
  unfold integerSuffix
  split
  · rw [Part.text_andThen (text_longMark _), Part.text_optional]
  · rfl

theorem text_numberIn (dialect : Dialect) (radix : Radix) (s : List Char) :
    (numberIn dialect radix s).text = s := by
  simp only [numberIn]
  rw [Part.text_andThen, text_mantissa]
  rw [Part.text_andThen, text_exponent]
  rw [Part.text_andThen, text_imaginaryUnit]
  rw [Part.text_require, text_integerSuffix]

theorem text_number (dialect : Dialect) (s : List Char) : (number dialect s).text = s := by
  unfold number
  split
  · split
    · rw [Part.text_push, text_numberIn]
      rfl
    · exact text_numberIn _ _ _
  · exact text_numberIn _ _ _

theorem taken_mantissa_ne_nil {radix : Radix} {c : Char} (s : List Char)
    (h : radix.isDigit c ∨ c = '.') : (mantissa radix (c :: s)).taken ≠ [] := by
  apply Part.taken_andThen_ne_nil
  by_cases digit : radix.isDigit c
  · apply Part.taken_andThen_ne_nil
    simp [Part.run, digit]
  · have point : c = '.' := h.resolve_left digit
    subst point
    simp [Part.andThen, Part.run, digit, Part.push, Part.optional, isPoint]

theorem taken_number_ne_nil (dialect : Dialect) {c : Char} (s : List Char)
    (h : isDigit c ∨ c = '.') : (number dialect (c :: s)).taken ≠ [] := by
  unfold number
  split
  · next mark s' eq =>
    split
    · exact Part.taken_push_ne_nil (by simp) _
    · exact Part.taken_andThen_ne_nil (taken_mantissa_ne_nil _ (.inl (by decide))) _
  · exact Part.taken_andThen_ne_nil (taken_mantissa_ne_nil _ h) _

end LuaFrontend.Lexeme
