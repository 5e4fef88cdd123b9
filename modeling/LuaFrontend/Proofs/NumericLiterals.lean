import LuaFrontend.Proofs.NumberWords
import LuaFrontend.Token.Tokenizer

set_option autoImplicit false

namespace LuaFrontend

open Lexeme

namespace Lexeme.Numeral

variable {dialect : Dialect} {s w : List Char}

/-- What is taken whole is a number. -/
theorem number_mem (whole : (number dialect s).complete) :
    (number dialect s).taken ∈ numbers dialect := by
  rcases hexadecimal_or_decimal s with ⟨mark, rest, isMark, rfl⟩ | noMark
  · rw [number_of_hexadecimal isMark] at whole ⊢
    exact .inr (Language.append_mem_mul (mem_hexMarks.mpr ⟨mark, isMark, rfl⟩)
      (numberIn_mem isPlain_hexadecimal whole))
  · rw [number_of_decimal noMark] at whole ⊢
    exact .inl (numberIn_mem isPlain_decimal whole)

/-- Where a number begins, there is a mantissa with a digit. -/
theorem Begins.mantissa (h : Begins s) : (mantissa .decimal s).taken ∈ mantissas .decimal := by
  obtain ⟨loose, -⟩ := mantissa_taken .decimal s
  refine (mem_mantissas isPlain_decimal).mpr ⟨loose, ?_⟩
  rcases h with ⟨c, rest, rfl, digit⟩ | ⟨c, rest, rfl, digit⟩
  · have first : Radix.decimal.isDigit c := digit
    have front := (Part.taken_prefix_andThen (Part.run Radix.decimal.isDigit (c :: rest))
      (Part.optional isPoint)).trans (Part.taken_prefix_andThen _ (Part.run Radix.decimal.isDigit))
    refine List.any_eq_true.mpr ⟨c, front.subset ?_, first⟩
    rw [Part.run, List.takeWhile_cons_of_pos first]
    exact List.mem_cons_self
  · have first : Radix.decimal.isDigit c := digit
    have point : Radix.decimal.isDigit '.' = false := rfl
    simp [Lexeme.mantissa, Part.run, point, Part.andThen, Part.optional, isPoint, Part.push,
      Part.require, first]

/-- Whatever is taken where a number begins, it begins a permitted word. -/
theorem number_taken (begins : Begins s) :
    (number dialect s).taken ∈ fronts (permitted dialect) := by
  rcases hexadecimal_or_decimal s with ⟨mark, rest, isMark, rfl⟩ | noMark
  · rw [number_of_hexadecimal isMark]
    have digits : (numberIn dialect .hexadecimal rest).taken ∈
        fronts (permittedIn dialect .hexadecimal (looseMantissas .hexadecimal)) :=
      numberIn_taken (mantissa_taken .hexadecimal rest).1
    have isHex : ['0', mark] ∈ hexMarks := mem_hexMarks.mpr ⟨mark, isMark, rfl⟩
    exact fronts_mono (fun _ => .inr) (append_mem_fronts isHex digits)
  · rw [number_of_decimal noMark]
    exact fronts_mono (fun _ => .inl) (numberIn_taken begins.mantissa)

theorem front_taken (s : List Char) : (number dialect s).taken <+: s :=
  ⟨_, text_number dialect s⟩

variable (longest : IsLongestFront (fronts (permitted dialect)) s w)

include longest

/-- A number is taken as it is: what goes on behind it begins no permitted word. -/
theorem number_of_longest (begins : Begins s) (isNumber : w ∈ numbers dialect) :
    (number dialect s).taken = w ∧ (number dialect s).complete := by
  have whole := number_of_mem isNumber
  obtain ⟨behind, rfl⟩ := longest.front
  rcases continues_number dialect w behind (by rw [whole]) with same | ⟨-, c, further⟩
  · rw [same, whole]
    exact ⟨rfl, rfl⟩
  · simp only [whole] at further
    have viable := mem_fronts_of_front (number_taken begins) further
    have shorter := longest.longest _ (further.trans (front_taken _)) viable
    have length := shorter.length_le
    rw [List.length_append, List.length_singleton] at length
    omega

/-- If a number is taken, no longer word is permitted: with its next character in sight the
recognizer would stop at the same place, and a permitted word has nothing left there. -/
theorem mem_numbers_of_complete (begins : Begins s) (whole : (number dialect s).complete) :
    w ∈ numbers dialect := by
  have front : (number dialect s).taken <+: w :=
    longest.longest _ (front_taken s) (number_taken begins)
  obtain ⟨more, same⟩ := front
  cases more with
  | nil =>
    rw [← same, List.append_nil]
    exact number_mem whole
  | cons c more =>
    obtain ⟨u, isPermitted⟩ := longest.mem
    obtain ⟨behind, all⟩ := longest.front
    have rest : (number dialect s).rest = [c] ++ (more ++ behind) := by
      have split := text_number dialect s
      rw [Part.text] at split
      rw [← same, List.append_assoc] at all
      simpa using List.append_cancel_left (split.trans all.symm)
    have cut := cuttable_number dialect s [c] (more ++ behind) rest
    have word : w ++ u = (number dialect s).taken ++ [c] ++ (more ++ u) := by
      rw [← same]
      simp
    rcases continues_number dialect _ (more ++ u) (by rw [cut]; exact whole) with again | ⟨none, -⟩
    · rw [cut, ← word] at again
      have left := rest_number isPermitted (by rw [again]; exact whole)
      rw [again] at left
      cases left
    · rw [cut] at none
      cases none

end Lexeme.Numeral

/-- Digits begin no name and no string. -/
theorem Lexeme.isNameStart_of_isDigit {c : Char} (h : isDigit c) (extended : Bool) :
    isNameStart extended c = false ∧ c ≠ '"' ∧ c ≠ '\'' := by
  have digit : (decide (c.val ≥ '0'.val) && decide (c.val ≤ '9'.val)) = true := h
  simp only [Bool.and_eq_true, decide_eq_true_eq] at digit
  have noLetter : c.isAlpha = false := by
    by_contra alpha
    have either : (decide (c.val ≥ 'A'.val ∧ c.val ≤ 'Z'.val) ||
        decide (c.val ≥ 'a'.val) && decide (c.val ≤ 'z'.val)) = true := Bool.not_eq_false _ ▸ alpha
    simp only [Bool.or_eq_true, Bool.and_eq_true, decide_eq_true_eq] at either
    grind
  have other (d : Char) (outside : d.val < '0'.val ∨ '9'.val < d.val) : c ≠ d := by
    rintro rfl
    grind
  have plain : ¬ 0x80 ≤ c.val := by grind
  refine ⟨?_, other '"' (by decide), other '\'' (by decide)⟩
  simp [isNameStart, noLetter, other '_' (by decide), plain]

/-- Where a number begins, the tokenizer reads a number. -/
theorem Lexeme.start_of_begins (dialect : Dialect) {s : List Char} (h : Numeral.Begins s) :
    start dialect s = .number := by
  rcases h with ⟨c, rest, rfl, digit⟩ | ⟨c, rest, rfl, digit⟩
  · obtain ⟨noName, noQuote, noApostrophe⟩ :=
      isNameStart_of_isDigit digit dialect.extendedIdentifiers
    simp [start, noName, noQuote, noApostrophe, digit]
  · simp [start, isNameStart, digit]

/-- Let `w` be the longest piece of text that begins a permitted word. If `w` is a number, it is the
token; if not, the number is malformed, and no more than `w` is read. -/
theorem numbers_are_read_exactly (t : Tokenizer) (begins : Numeral.Begins t.skipSpace.rest) :
    (∃! w, Numeral.IsLongestFront (Numeral.fronts (Numeral.permitted t.dialect))
      t.skipSpace.rest w) ∧
    ∀ w, Numeral.IsLongestFront (Numeral.fronts (Numeral.permitted t.dialect))
        t.skipSpace.rest w →
      (w ∈ Numeral.numbers t.dialect →
        t.next.1 = .ok ⟨.number, String.ofList w, t.skipSpace.here⟩) ∧
      (w ∉ Numeral.numbers t.dialect → ∃ v, v <+: w ∧
        t.next.1 = .error ⟨.malformedNumber, t.skipSpace.here, String.ofList v⟩) := by
  have read : Lexeme.read t.skipSpace.dialect t.skipSpace.rest =
      .ofPart (number t.dialect t.skipSpace.rest) .number .malformedNumber := by
    simp only [Lexeme.read, Lexeme.start_of_begins _ begins]
    rfl
  have viable : (number t.dialect t.skipSpace.rest).taken ∈
      Numeral.fronts (Numeral.permitted t.dialect) := Numeral.number_taken begins
  obtain ⟨w, longest⟩ := Numeral.exists_isLongestFront t.skipSpace.rest
    (Numeral.mem_fronts_of_front viable List.nil_prefix)
  refine ⟨⟨w, longest, fun _ other => other.unique longest⟩, ?_⟩
  refine fun w longest => ⟨fun isNumber => ?_, fun isNone => ?_⟩
  · obtain ⟨taken, whole⟩ := Numeral.number_of_longest longest begins isNumber
    simp only [Tokenizer.next, Tokenizer.takeLexeme, read, Lexeme.Reading.ofPart, whole, taken,
      if_true]
  · have broken : (number t.dialect t.skipSpace.rest).complete = false :=
      Bool.eq_false_iff.mpr fun whole =>
        isNone (Numeral.mem_numbers_of_complete longest begins whole)
    refine ⟨_, longest.longest _ (Numeral.front_taken _) viable, ?_⟩
    simp [Tokenizer.next, Tokenizer.takeLexeme, read, Lexeme.Reading.ofPart, broken]

/-- A fraction in hexadecimal digits with an exponent in decimal ones. A point behind it would make
it malformed, but not behind a unit. -/
theorem unit_ends_number :
    let t := Tokenizer.ofSource {} " 0x.8p-1i..x"
    Numeral.Begins t.skipSpace.rest ∧
      ∃ w, Numeral.IsLongestFront (Numeral.fronts (Numeral.permitted t.dialect))
          t.skipSpace.rest w ∧
        w ∈ Numeral.numbers t.dialect ∧ String.ofList w = "0x.8p-1i" ∧
        t.next.1 = .ok ⟨.number, String.ofList w, t.skipSpace.here⟩ := by
  intro t
  have begins : Numeral.Begins t.skipSpace.rest := .inl ⟨'0', _, rfl, rfl⟩
  obtain ⟨⟨w, longest, -⟩, all⟩ := numbers_are_read_exactly t begins
  obtain ⟨ofNumber, ofOther⟩ := all w longest
  have read : t.next.1.toOption.map Token.text = some "0x.8p-1i" := by decide +kernel
  have isNumber : w ∈ Numeral.numbers t.dialect := by
    by_contra isNone
    obtain ⟨v, -, malformed⟩ := ofOther isNone
    rw [malformed] at read
    cases read
  rw [ofNumber isNumber] at read
  exact ⟨begins, w, longest, isNumber, Option.some.inj read, ofNumber isNumber⟩

end LuaFrontend
