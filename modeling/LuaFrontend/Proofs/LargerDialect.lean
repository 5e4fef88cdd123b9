import LuaFrontend.Lexeme.Read
import LuaFrontend.Proofs.CharacterBytes
import Mathlib.Data.List.TakeWhile

set_option autoImplicit false

namespace LuaFrontend

/-- The second dialect has the labels, signs and letters of the first and perhaps more; they do not
differ in anything else. -/
structure Dialect.IsWithin (small large : Dialect) : Prop where
  labels : small.labels → large.labels
  integerDivision : small.integerDivision → large.integerDivision
  bitwiseOperators : small.bitwiseOperators → large.bitwiseOperators
  extendedIdentifiers : small.extendedIdentifiers → large.extendedIdentifiers
  contextualGoto : large.contextualGoto = small.contextualGoto
  imaginaryNumbers : large.imaginaryNumbers = small.imaginaryNumbers
  integerSuffixes : large.integerSuffixes = small.integerSuffixes

/-- Signs of which two could be one symbol. -/
def doubledSigns : List Char := ['<', '>', '/', ':']

namespace Lexeme

variable {small large : Dialect} {c : Char} {s : List Char} {kind : TokenKind}

section Symbols

/-- Where two such signs are no symbol, the first of them is one alone. -/
theorem symbol?_of_pair {dialect : Dialect} (sign : c ∈ doubledSigns)
    (off : [c, c] ∉ symbols dialect) (s : List Char) :
    symbol? dialect (c :: c :: s) = some [c] := by
  simp only [doubledSigns, List.mem_cons, List.not_mem_nil, or_false] at sign
  obtain ⟨labels, _, division, bitwise, _, _, _⟩ := dialect
  rcases sign with rfl | rfl | rfl | rfl <;> cases labels <;> cases division <;> cases bitwise <;>
    first
    | rfl
    | exact absurd (by simp [symbols]) off

theorem find?_optional {α : Type} (test : α → Bool) (items : List α) {fewer more : Bool}
    (le : fewer → more) (others : fewer = false → ∀ a ∈ items, test a = false) :
    (if more then items else []).find? test = (if fewer then items else []).find? test := by
  cases fewer with
  | true => rw [le rfl]
  | false =>
    cases more with
    | false => rfl
    | true =>
      rw [if_pos rfl, if_neg Bool.false_ne_true, List.find?_nil, List.find?_eq_none]
      intro a inside
      simp [others rfl a inside]

/-- A symbol stays the same, unless it is a sign that is doubled here. -/
theorem symbol?_eq (h : small.IsWithin large) {symbol : List Char}
    (found : symbol? small s = some symbol)
    (single : ∀ c ∈ doubledSigns, symbol = [c] → s[1]? ≠ some c) :
    symbol? large s = some symbol := by
  have pair (c : Char) (sign : c ∈ doubledSigns) (off : [c, c] ∉ symbols small) :
      [c, c].isPrefixOf s = false := by
    rw [Bool.eq_false_iff]
    intro front
    obtain ⟨behind, rfl⟩ := List.isPrefixOf_iff_prefix.mp front
    have alone := symbol?_of_pair sign off behind
    rw [show symbol? small (c :: c :: behind) = some symbol from found] at alone
    exact single c sign (Option.some.inj alone) rfl
  have bitwise := find?_optional (·.isPrefixOf s) [['<', '<'], ['>', '>']]
    h.bitwiseOperators fun off a inside => by
      simp only [List.mem_cons, List.not_mem_nil, or_false] at inside
      rcases inside with rfl | rfl
      · exact pair '<' (by decide) (by simp [symbols, off])
      · exact pair '>' (by decide) (by simp [symbols, off])
  have division := find?_optional (·.isPrefixOf s) [['/', '/']] h.integerDivision
    fun off a inside => by
      obtain rfl := List.mem_singleton.mp inside
      exact pair '/' (by decide) (by simp [symbols, off])
  have labels := find?_optional (·.isPrefixOf s) [[':', ':']] h.labels fun off a inside => by
      obtain rfl := List.mem_singleton.mp inside
      exact pair ':' (by decide) (by simp [symbols, off])
  unfold symbol? symbols at found ⊢
  rw [List.find?_append] at found ⊢
  simp only [List.find?_append, bitwise, division, labels] at found ⊢
  rw [Option.or_eq_some_iff] at found ⊢
  rcases found with early | ⟨late, last⟩
  · exact .inl early
  · refine .inr ⟨late, ?_⟩
    by_cases on : small.bitwiseOperators
    · rw [if_pos (h.bitwiseOperators on)]
      rwa [if_pos on] at last
    · rw [if_neg on] at last
      cases last

end Symbols

theorem val_lt_of_mem_symbols {dialect : Dialect} {symbol : List Char}
    (h : symbol ∈ symbols dialect) : symbol.head?.any (·.val < 0x80) := by
  have flags : ∀ l i b : Bool, ∀ symbol ∈ symbols ⟨l, false, i, b, false, false, false⟩,
      symbol.head?.any (·.val < 0x80) := by decide
  exact flags dialect.labels dialect.integerDivision dialect.bitwiseOperators symbol h

/-- Without the extended alphabet a token begins with a character of ASCII. -/
theorem val_lt_of_read {dialect : Dialect} (plain : dialect.extendedIdentifiers = false)
    (ok : (read dialect (c :: s)).outcome = .ok kind) : c.val < 0x80 := by
  by_contra high
  have noAlpha : c.isAlpha = false := by
    rw [Bool.eq_false_iff]
    exact fun alpha => high (val_lt_of_isAlpha alpha)
  have noDigit : isDigit c = false := by
    rw [Bool.eq_false_iff]
    intro digit
    simp only [isDigit, Char.isDigit, Bool.and_eq_true, decide_eq_true_eq] at digit
    grind
  have other (d : Char) (low : d.val < 0x80) : c ≠ d := by
    rintro rfl
    exact high low
  have begins : start dialect (c :: s) = .symbol := by
    simp [start, isNameStart, plain, noAlpha, noDigit, other '_' (by decide),
      other '"' (by decide), other '\'' (by decide), other '.' (by decide), other '-' (by decide),
      other '[' (by decide)]
  simp only [read, begins, readSymbol] at ok
  split at ok
  · next symbol found =>
    unfold symbol? at found
    have front := List.find?_some found
    have low := val_lt_of_mem_symbols (List.mem_of_find?_eq_some found)
    cases symbol with
    | nil => cases low
    | cons d symbol =>
      obtain ⟨rfl, -⟩ := List.cons_prefix_cons.mp (List.isPrefixOf_iff_prefix.mp front)
      simp only [List.head?_cons, Option.any_some, decide_eq_true_eq] at low
      exact high low
  · cases ok

/-- Characters that are letters in both dialects or in none. -/
def SameLetter (small large : Dialect) (c : Char) : Prop :=
  small.extendedIdentifiers = large.extendedIdentifiers ∨ c.val < 0x80

theorem sameLetter_of_read (h : small.IsWithin large)
    (ok : (read small (c :: s)).outcome = .ok kind) : SameLetter small large c := by
  cases plain : small.extendedIdentifiers with
  | false => exact .inr (val_lt_of_read plain ok)
  | true => exact .inl (plain.trans (h.extendedIdentifiers plain).symm)

theorem SameLetter.isNameStart_eq (h : SameLetter small large c) :
    isNameStart large.extendedIdentifiers c = isNameStart small.extendedIdentifiers c := by
  rcases h with same | low
  · rw [same]
  · have noLetter : (0x80 ≤ c.val) = False := by simpa using low
    simp only [isNameStart, noLetter, decide_false, Bool.and_false]

theorem SameLetter.isNamePart_eq (h : SameLetter small large c) :
    isNamePart large.extendedIdentifiers c = isNamePart small.extendedIdentifiers c := by
  simp only [isNamePart, h.isNameStart_eq]

theorem isNamePart_of_isWithin (h : small.IsWithin large)
    (part : isNamePart small.extendedIdentifiers c) : isNamePart large.extendedIdentifiers c := by
  cases extended : small.extendedIdentifiers with
  | true =>
    rw [extended] at part
    rwa [h.extendedIdentifiers extended]
  | false =>
    rw [extended] at part
    simp only [isNamePart, isNameStart, Bool.false_and, Bool.or_false, Bool.or_eq_true] at part ⊢
    exact part.imp_left .inl

theorem start_eq (h : SameLetter small large c) (s : List Char) :
    start large (c :: s) = start small (c :: s) := by
  simp only [start, h.isNameStart_eq]

theorem readName_eq (h : small.IsWithin large)
    (stops : ∀ c ∈ (readName small s).rest.head?, SameLetter small large c) :
    readName large s = readName small s := by
  have same : s.takeWhile (isNamePart large.extendedIdentifiers) =
        s.takeWhile (isNamePart small.extendedIdentifiers) ∧
      s.dropWhile (isNamePart large.extendedIdentifiers) =
        s.dropWhile (isNamePart small.extendedIdentifiers) := by
    simp only [readName] at stops
    induction s with
    | nil => exact ⟨rfl, rfl⟩
    | cons c s ih =>
      by_cases part : isNamePart small.extendedIdentifiers c
      · have alsoPart := isNamePart_of_isWithin h part
        rw [List.dropWhile_cons_of_pos part] at stops
        simp only [List.takeWhile_cons_of_pos part, List.takeWhile_cons_of_pos alsoPart,
          List.dropWhile_cons_of_pos part, List.dropWhile_cons_of_pos alsoPart, ih stops, and_self]
      · rw [List.dropWhile_cons_of_neg part] at stops
        have alsoOther : ¬ isNamePart large.extendedIdentifiers c := by
          rwa [(stops c rfl).isNamePart_eq]
        simp only [List.takeWhile_cons_of_neg part, List.takeWhile_cons_of_neg alsoOther,
          List.dropWhile_cons_of_neg part, List.dropWhile_cons_of_neg alsoOther, and_self]
  simp only [readName, same, h.contextualGoto]

theorem number_eq (h : small.IsWithin large) (s : List Char) : number large s = number small s := by
  have sameIn : numberIn large = numberIn small := by
    funext radix s
    simp only [numberIn, imaginaryUnit, integerSuffix, h.imaginaryNumbers, h.integerSuffixes]
  unfold number
  rw [sameIn]

theorem readSymbol_eq (h : small.IsWithin large) (ok : (readSymbol small s).outcome = .ok kind)
    (single : ∀ c ∈ doubledSigns, (readSymbol small s).taken = [c] →
      c ∉ (readSymbol small s).rest.head?) :
    readSymbol large s = readSymbol small s := by
  cases s with
  | nil => rfl
  | cons c s =>
    simp only [readSymbol] at ok single ⊢
    cases found : symbol? small (c :: s) with
    | none =>
      rw [found] at ok
      cases ok
    | some symbol =>
      rw [found] at single
      rw [symbol?_eq h found]
      rintro d sign rfl next
      apply single d sign rfl
      simpa [List.head?_eq_getElem?] using next

/-- A token stays the same in a larger dialect, if the text does not go on with a letter that is new
there nor with the second half of a doubled sign. -/
theorem read_eq (h : small.IsWithin large) (ok : (read small s).outcome = .ok kind)
    (stops : ∀ c ∈ (read small s).rest.head?, SameLetter small large c)
    (single : ∀ c ∈ doubledSigns, (read small s).taken = [c] → c ∉ (read small s).rest.head?) :
    read large s = read small s := by
  cases s with
  | nil => rfl
  | cons c s =>
    have begins := start_eq (sameLetter_of_read h ok) s
    unfold read at ok stops single ⊢
    rw [begins]
    cases same : start small (c :: s) with
    | name =>
      simp only [same] at stops
      exact readName_eq h stops
    | quote => rfl
    | number => simp only [number_eq h]
    | comment => rfl
    | longBracket => rfl
    | symbol =>
      simp only [same] at ok single
      exact readSymbol_eq h ok single

/-- What begins with such a sign is a symbol. -/
theorem kind_of_read {dialect : Dialect} (sign : c ∈ doubledSigns)
    (ok : (read dialect (c :: s)).outcome = .ok kind) : kind = .symbol := by
  have begins : start dialect (c :: s) = .symbol := by
    simp only [doubledSigns, List.mem_cons, List.not_mem_nil, or_false] at sign
    rcases sign with rfl | rfl | rfl | rfl <;> cases extended : dialect.extendedIdentifiers <;>
      simp [start, extended, isNameStart, isDigit]
  simp only [read, begins, readSymbol] at ok
  split at ok
  · next symbol found =>
    unfold symbol? at found
    have front := List.find?_some found
    split at ok
    · next vararg =>
      subst vararg
      obtain ⟨rfl, -⟩ := List.cons_prefix_cons.mp (List.isPrefixOf_iff_prefix.mp front)
      exact absurd sign (by decide)
    · exact (Except.ok.inj ok).symm
  · cases ok

end Lexeme
end LuaFrontend
