import LuaFrontend.Proofs.LexemeCut

set_option autoImplicit false

namespace LuaFrontend.Lexeme

/-- Where the recognizer takes something whole, it takes the same from a text that goes on, or more
if it took all there was. -/
def Continues (recognize : List Char → Part) : Prop :=
  ∀ s behind, (recognize s).complete →
    recognize (s ++ behind) = (recognize s).append behind ∨
      (recognize s).rest = [] ∧ ∃ c, (recognize s).taken ++ [c] <+: (recognize (s ++ behind)).taken

namespace Continues

variable {first second : List Char → Part}

theorem nothing : Continues Part.nothing := fun _ _ _ => .inl rfl

theorem run (test : Char → Bool) : Continues (Part.run test) := by
  intro s behind _
  by_cases all : s.dropWhile test = []
  · have inside : ∀ c ∈ s, test c := List.dropWhile_eq_nil_iff.mp all
    have taken : (Part.run test (s ++ behind)).taken = s ++ behind.takeWhile test :=
      List.takeWhile_append_of_pos inside
    cases behind with
    | nil =>
      left
      rw [List.append_nil]
      simp [Part.append]
    | cons c behind =>
      by_cases passes : test c
      · refine .inr ⟨all, c, ?_⟩
        rw [taken, List.takeWhile_cons_of_pos passes, Part.run,
          List.takeWhile_eq_self_iff.mpr inside]
        exact (List.prefix_append_right_inj s).mpr ⟨_, rfl⟩
      · left
        simp only [Part.run, Part.append, List.takeWhile_append_of_pos inside,
          List.dropWhile_append_of_pos inside, List.takeWhile_cons_of_neg passes,
          List.dropWhile_cons_of_neg passes, List.takeWhile_eq_self_iff.mpr inside, all,
          List.append_nil, List.nil_append]
  · left
    have shorter : (s.takeWhile test).length ≠ s.length := by
      have split := congrArg List.length (@List.takeWhile_append_dropWhile _ test s)
      have more := List.length_pos_iff.mpr all
      rw [List.length_append] at split
      omega
    simp [Part.run, Part.append, List.takeWhile_append, List.dropWhile_append, shorter, all]

theorem optional (test : Char → Bool) : Continues (Part.optional test) := by
  intro s behind _
  cases s with
  | nil =>
    cases behind with
    | nil => exact .inl rfl
    | cons c behind =>
      by_cases passes : test c
      · exact .inr ⟨rfl, c, by simp [Part.optional, passes, Part.nothing]⟩
      · exact .inl (by simp [Part.optional, passes, Part.nothing, Part.append])
  | cons c s =>
    left
    by_cases passes : test c <;> simp [Part.optional, passes, Part.nothing, Part.append]

/-- What is read second may depend on what was taken first. -/
theorem andThenOf (h : Continues first) (next : List Char → List Char → Part)
    (g : ∀ taken, Continues (next taken)) (splits : ∀ taken s, (next taken s).text = s) :
    Continues fun s => (first s).andThen (next (first s).taken) := by
  intro s behind whole
  obtain ⟨ofFirst, ofSecond⟩ := Part.complete_andThen whole
  simp only [Part.andThen_of_complete ofFirst]
  rcases h s behind ofFirst with same | ⟨none, c, further⟩
  · have also : (first (s ++ behind)).complete := by
      rw [same]
      exact ofFirst
    rw [Part.andThen_of_complete also, same, Part.taken_append, Part.rest_append]
    rcases g (first s).taken (first s).rest behind ofSecond with again | ⟨none, c, further⟩
    · left
      rw [again]
      rfl
    · refine .inr ⟨none, c, ?_⟩
      simp only [Part.push, List.append_assoc]
      exact (List.prefix_append_right_inj _).mpr further
  · -- The first recognizer took everything, so nothing is left for the second one.
    have split := splits (first s).taken (first s).rest
    rw [none] at split ⊢
    obtain ⟨empty, nothing⟩ := List.append_eq_nil_iff.mp split
    refine .inr ⟨nothing, c, ?_⟩
    simp only [Part.push, empty, List.append_nil]
    exact further.trans (Part.taken_prefix_andThen _ _)

theorem andThen (h : Continues first) (g : Continues second) (splits : ∀ s, (second s).text = s) :
    Continues fun s => (first s).andThen second :=
  h.andThenOf (fun _ => second) (fun _ => g) fun _ => splits

theorem require (h : Continues first) (condition : List Char → Bool) :
    Continues fun s => (first s).require (condition (first s).taken) := by
  intro s behind whole
  obtain ⟨ofFirst, -⟩ := complete_require whole
  rcases h s behind ofFirst with same | further
  · left
    simp only [same]
    rfl
  · exact .inr further

end Continues

section Numbers

theorem continues_mantissa (radix : Radix) : Continues (mantissa radix) :=
  (((Continues.run radix.isDigit).andThen (.optional isPoint) (Part.text_optional _)).andThen
    (.run radix.isDigit) (Part.text_run _)).require (·.any radix.isDigit)

theorem continues_noPoint : Continues noPoint := (Continues.optional isPoint).require (·.isEmpty)

theorem continues_powerDigits : Continues powerDigits :=
  ((Continues.optional isSign).andThen ((Continues.run isDigit).require (!·.isEmpty))
    text_someDigits).andThen continues_noPoint text_noPoint

theorem continues_ifTaken {next : List Char → Part} (h : Continues next) (taken : List Char) :
    Continues (ifTaken next taken) := by
  unfold ifTaken
  split
  · exact .nothing
  · exact h

theorem continues_power (radix : Radix) : Continues (power radix) := by
  rw [power_eq]
  exact (Continues.optional _).andThenOf (ifTaken powerDigits)
    (continues_ifTaken continues_powerDigits) (text_ifTaken text_powerDigits)

theorem continues_exponent (radix : Radix) : Continues (exponent radix) :=
  continues_noPoint.andThen (continues_power radix) (text_power radix)

theorem continues_imaginaryUnit (dialect : Dialect) : Continues (imaginaryUnit dialect) := by
  unfold imaginaryUnit
  split
  · exact .optional isImaginaryUnit
  · exact .nothing

theorem continues_longMark : Continues longMark := by
  have second : Continues secondLongMark := (Continues.optional isLongMark).require (!·.isEmpty)
  have splits (s : List Char) : (secondLongMark s).text = s := Part.text_optional _ s
  rw [longMark_eq]
  exact (Continues.optional _).andThenOf (ifTaken secondLongMark) (continues_ifTaken second)
    (text_ifTaken splits)

theorem continues_integerSuffix (dialect : Dialect) : Continues (integerSuffix dialect) := by
  unfold integerSuffix
  split
  · exact (Continues.optional isUnsignedMark).andThen continues_longMark text_longMark
  · exact .nothing

theorem continues_numberIn (dialect : Dialect) (radix : Radix) :
    Continues (numberIn dialect radix) := by
  have suffix (isInteger : Bool) : Continues (suffixOf dialect isInteger) :=
    (continues_integerSuffix dialect).require (·.isEmpty || isInteger)
  have unit (isInteger : Bool) : Continues (unitAndSuffix dialect isInteger) :=
    (continues_imaginaryUnit dialect).andThenOf
      (fun taken => suffixOf dialect (isInteger && taken.isEmpty)) (fun _ => suffix _)
      fun _ => text_suffixOf dialect _
  have behind (digits : List Char) : Continues (behindMantissa dialect radix digits) :=
    (continues_exponent radix).andThenOf
      (fun taken => unitAndSuffix dialect (!digits.any isPoint && taken.isEmpty)) (fun _ => unit _)
      fun _ => text_unitAndSuffix dialect _
  rw [numberIn_eq]
  exact (continues_mantissa radix).andThenOf _ behind (text_behindMantissa dialect radix)

theorem numberIn_zero (dialect : Dialect) :
    numberIn dialect .decimal ['0'] = ⟨['0'], [], true⟩ := by
  simp only [numberIn, imaginaryUnit, integerSuffix]
  split <;> split <;> rfl

/-- A zero alone is a number, and `0x` begins one: that is the only place where more text changes
the radix. -/
theorem continues_number (dialect : Dialect) : Continues (number dialect) := by
  intro s behind whole
  rcases hexadecimal_or_decimal s with ⟨mark, s', isMark, rfl⟩ | noMark
  · rw [number_of_hexadecimal isMark] at whole ⊢
    rw [List.cons_append, List.cons_append, number_of_hexadecimal isMark]
    rcases continues_numberIn dialect .hexadecimal s' behind whole with same | ⟨none, c, further⟩
    · left
      rw [same]
      rfl
    · refine .inr ⟨none, c, ?_⟩
      simp only [Part.push, List.append_assoc]
      exact (List.prefix_append_right_inj _).mpr further
  · rw [number_of_decimal noMark] at whole ⊢
    rcases hexadecimal_or_decimal (s ++ behind) with ⟨mark, s', isMark, same⟩ | stillNone
    · rw [same, number_of_hexadecimal isMark]
      cases s with
      | nil => cases whole
      | cons c s =>
        obtain ⟨rfl, others⟩ := List.cons.inj same
        cases s with
        | nil =>
          rw [numberIn_zero]
          exact .inr ⟨rfl, mark, List.prefix_append ['0', mark] _⟩
        | cons d rest =>
          obtain ⟨rfl, -⟩ := List.cons.inj others
          rw [noMark _ rest rfl] at isMark
          cases isMark
    · rw [number_of_decimal stillNone]
      exact continues_numberIn dialect .decimal s behind whole

end Numbers

end LuaFrontend.Lexeme
