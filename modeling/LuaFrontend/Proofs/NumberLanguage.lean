import LuaFrontend.Lexeme.Number
import Mathlib.Computability.Language

set_option autoImplicit false

/-
The language of numeric literals, and the larger one whose words a reader of numbers goes through
before it can tell that something is no number.
-/

namespace LuaFrontend.Lexeme.Numeral

/-- One character of the class. -/
def one (test : Char → Bool) : Language Char := {w | ∃ c, test c ∧ w = [c]}

/-- Any number of characters of the class. -/
def any (test : Char → Bool) : Language Char := {w | ∀ c ∈ w, test c}

/-- At least one character of the class. -/
def some (test : Char → Bool) : Language Char := {w | w ≠ [] ∧ ∀ c ∈ w, test c}

/-- Maybe a word of the language, where that is switched on. -/
def optional (isOn : Bool) (l : Language Char) : Language Char := if isOn then 1 + l else 1

/-- Digits with at most one point among them. There is a digit. -/
def mantissas (radix : Radix) : Language Char :=
  some radix.isDigit * (1 + one isPoint * any radix.isDigit) + one isPoint * some radix.isDigit

/-- The same, but the digits may be missing. -/
def looseMantissas (radix : Radix) : Language Char :=
  any radix.isDigit * (1 + one isPoint * any radix.isDigit)

def exponents (radix : Radix) : Language Char :=
  one radix.isExponentMark * (1 + one isSign) * some isDigit

def units : Language Char := one isImaginaryUnit

def suffixes : Language Char :=
  one isUnsignedMark + one isLongMark * one isLongMark +
    one isUnsignedMark * one isLongMark * one isLongMark

/-- What makes a number hexadecimal. -/
def hexMarks : Language Char := one (· == '0') * one isHexMark

/-- Numbers in one radix: with an exponent and a unit, or digits only with a suffix. -/
def numbersIn (dialect : Dialect) (radix : Radix) : Language Char :=
  mantissas radix * (1 + exponents radix) * optional dialect.imaginaryNumbers units +
    some radix.isDigit * optional dialect.integerSuffixes suffixes

/-- The numbers of a dialect. -/
def numbers (dialect : Dialect) : Language Char :=
  numbersIn dialect .decimal + hexMarks * numbersIn dialect .hexadecimal

/-- Such a mantissa with whatever can be written behind one, and a point too many. -/
def permittedIn (dialect : Dialect) (radix : Radix) (mantissas : Language Char) : Language Char :=
  mantissas * (1 + exponents radix) * (1 + one isPoint) *
    optional dialect.imaginaryNumbers units * optional dialect.integerSuffixes suffixes

/-- The numbers of a dialect with three rules relaxed: a hexadecimal mantissa may have no digits,
one more point may stand behind mantissa and exponent, and every number may have a suffix. -/
def permitted (dialect : Dialect) : Language Char :=
  permittedIn dialect .decimal (mantissas .decimal) +
    hexMarks * permittedIn dialect .hexadecimal (looseMantissas .hexadecimal)

/-- What words of the language begin with. -/
def fronts (l : Language Char) : Language Char := {v | ∃ u, v ++ u ∈ l}

/-- Of what the text begins with, this is the longest that is in the language. -/
structure IsLongestFront (l : Language Char) (s w : List Char) : Prop where
  front : w <+: s
  mem : w ∈ l
  longest : ∀ v, v <+: s → v ∈ l → v <+: w

/-- A digit comes next, or a point and a digit. -/
def Begins (s : List Char) : Prop :=
  (∃ c rest, s = c :: rest ∧ isDigit c) ∨ ∃ c rest, s = '.' :: c :: rest ∧ isDigit c

section Fronts

variable {l m : Language Char} {v w : List Char}

theorem mem_fronts (h : w ∈ l) : w ∈ fronts l := ⟨[], by rwa [List.append_nil]⟩

theorem fronts_mono (le : ∀ w ∈ l, w ∈ m) (h : v ∈ fronts l) : v ∈ fronts m :=
  ⟨h.choose, le _ h.choose_spec⟩

theorem mem_fronts_of_front (h : w ∈ fronts l) (front : v <+: w) : v ∈ fronts l := by
  obtain ⟨u, word⟩ := h
  obtain ⟨x, rfl⟩ := front
  exact ⟨x ++ u, by rwa [← List.append_assoc]⟩

/-- Where the first part of a word is whole, the second one may be begun. -/
theorem append_mem_fronts (h : v ∈ l) (g : w ∈ fronts m) : v ++ w ∈ fronts (l * m) := by
  obtain ⟨u, word⟩ := g
  exact ⟨u, by rw [List.append_assoc]; exact Language.append_mem_mul h word⟩

theorem fronts_mul (h : v ∈ fronts l) (g : w ∈ m) : v ∈ fronts (l * m) := by
  obtain ⟨u, word⟩ := h
  exact ⟨u ++ w, by rw [← List.append_assoc]; exact Language.append_mem_mul word g⟩

theorem IsLongestFront.unique {s : List Char} (h : IsLongestFront l s v)
    (g : IsLongestFront l s w) : v = w :=
  List.IsPrefix.eq_of_length (g.longest v h.front h.mem)
    (Nat.le_antisymm (g.longest v h.front h.mem).length_le (h.longest w g.front g.mem).length_le)

theorem exists_isLongestFront (s : List Char) (h : [] ∈ l) : ∃ w, IsLongestFront l s w := by
  classical
  let inside (n : Nat) : Prop := s.take n ∈ l
  refine ⟨s.take (Nat.findGreatest inside s.length), List.take_prefix _ _, ?_, ?_⟩
  · exact Nat.findGreatest_spec (P := inside) (Nat.zero_le _) h
  · intro v front mem
    have same : v = s.take v.length := List.prefix_iff_eq_take.mp front
    have here : inside v.length := (congrArg (· ∈ l) same).mp mem
    have found := Nat.le_findGreatest front.length_le here
    rw [same]
    exact List.take_prefix_take_left found

end Fronts

section Words

theorem nil_mem_optional (isOn : Bool) (l : Language Char) : [] ∈ optional isOn l := by
  cases isOn
  · exact rfl
  · exact .inl rfl

theorem nil_mem_one_add (l : Language Char) : [] ∈ 1 + l := .inl rfl

end Words

end LuaFrontend.Lexeme.Numeral
