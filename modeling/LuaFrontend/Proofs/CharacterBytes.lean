import LuaFrontend.Source.Class

set_option autoImplicit false

namespace LuaFrontend

variable {c d : Char} {b : UInt8} {rest : List UInt8} {test : Char → Bool}

theorem exists_utf8EncodeChar (c : Char) : ∃ b rest, String.utf8EncodeChar c = b :: rest := by
  refine List.exists_cons_of_ne_nil fun empty => ?_
  have size := String.length_utf8EncodeChar c
  rw [empty] at size
  exact absurd size (Nat.ne_of_lt (Char.utf8Size_pos c))

theorem length_flatMap_utf8EncodeChar (text : List Char) :
    (text.flatMap String.utf8EncodeChar).length = byteLength text := by
  induction text with
  | nil => rfl
  | cons c text ih =>
    rw [List.flatMap_cons, List.length_append, String.length_utf8EncodeChar, ih, byteLength_cons]

theorem ofUInt8_of_utf8Size (one : c.utf8Size = 1) : Char.ofUInt8 c.val.toUInt8 = c := by
  have small : c.val.toNat ≤ 127 := UInt32.le_iff_toNat_le.mp (Char.utf8Size_eq_one_iff.mp one)
  apply Char.ext
  apply UInt32.toNat_inj.mp
  change c.val.toUInt8.toUInt32.toNat = c.val.toNat
  rw [UInt8.toNat_toUInt32, UInt32.toNat_toUInt8]
  omega

theorem lt_val_of_utf8Size (more : c.utf8Size ≠ 1) : 127 < c.val.toNat := by
  apply Nat.lt_of_not_le
  intro small
  exact more (Char.utf8Size_eq_one_iff.mpr (UInt32.le_iff_toNat_le.mpr small))

/-- The bytes of a character of several bytes are none of ASCII. -/
theorem le_of_mem_utf8EncodeChar (more : c.utf8Size ≠ 1) (h : b ∈ String.utf8EncodeChar c) :
    128 ≤ b.toNat := by
  have large := lt_val_of_utf8Size more
  simp only [String.utf8EncodeChar, if_neg (Nat.not_le_of_lt large)] at h
  repeat' split at h
  all_goals
    simp only [List.mem_cons, List.not_mem_nil, or_false] at h
    rcases h with rfl | rfl | rfl | rfl <;> simp only [UInt8.toNat_ofNat'] <;> omega

theorem utf8Size_ofUInt8_of_le (h : 128 ≤ b.toNat) : (Char.ofUInt8 b).utf8Size ≠ 1 := by
  rw [ne_eq, Char.utf8Size_eq_one_iff]
  intro small
  have value : b.toUInt32.toNat ≤ 127 := small
  rw [UInt8.toNat_toUInt32] at value
  omega

/-- A test gives the same answer for a character and for each of its bytes. -/
def IsBytewise (test : Char → Bool) : Prop :=
  ∀ (c : Char) (b : UInt8), b ∈ String.utf8EncodeChar c → test (.ofUInt8 b) = test c

/-- A test is made for bytes if it does not tell apart what is outside ASCII. -/
theorem isBytewise_of_outside (outside : Bool)
    (h : ∀ c, c.utf8Size ≠ 1 → test c = outside) : IsBytewise test := by
  intro c b member
  by_cases one : c.utf8Size = 1
  · rw [String.utf8EncodeChar_eq_singleton one, List.mem_singleton] at member
    rw [member, ofUInt8_of_utf8Size one]
  · rw [h c one, h _ (utf8Size_ofUInt8_of_le (le_of_mem_utf8EncodeChar one member))]

theorem isBytewise_of_ascii (ascii : ∀ c, test c → c.utf8Size = 1) : IsBytewise test :=
  isBytewise_of_outside false fun c more =>
    Bool.eq_false_iff.mpr fun passes => more (ascii c passes)

theorem test_ofUInt8_of_le (ascii : ∀ c, test c → c.utf8Size = 1) (outside : 128 ≤ b.toNat) :
    test (.ofUInt8 b) = false :=
  Bool.eq_false_iff.mpr fun passes => utf8Size_ofUInt8_of_le outside (ascii _ passes)

/-- A class of ASCII characters has a character if it has any of its bytes. -/
theorem test_of_mem_utf8EncodeChar (ascii : ∀ c, test c → c.utf8Size = 1)
    (h : b ∈ String.utf8EncodeChar c) : test (.ofUInt8 b) = test c :=
  isBytewise_of_ascii ascii c b h

theorem IsBytewise.not (h : IsBytewise test) : IsBytewise (!test ·) :=
  fun c b member => congrArg (!·) (h c b member)

theorem utf8Size_of_beq (ascii : d.utf8Size = 1) : ∀ c, c == d → c.utf8Size = 1 := by
  intro c same
  rw [beq_iff_eq.mp same]
  exact ascii

theorem isBytewise_eq (ascii : d.utf8Size = 1) : IsBytewise (· == d) :=
  isBytewise_of_ascii (utf8Size_of_beq ascii)

/-- One of two ASCII characters. -/
theorem isBytewise_or {e : Char} (first : d.utf8Size = 1) (second : e.utf8Size = 1) :
    IsBytewise (fun c => c == d || c == e) :=
  fun c b member =>
    congr (congrArg or (isBytewise_eq first c b member)) (isBytewise_eq second c b member)

theorem utf8Size_of_isSpace (h : isSpace c) : c.utf8Size = 1 := by
  have member := mem_of_isSpace h
  simp only [List.mem_cons, List.not_mem_nil, or_false] at member
  rcases member with rfl | rfl | rfl | rfl | rfl | rfl <;> rfl

theorem utf8Size_of_isBlank (h : isBlank c) : c.utf8Size = 1 :=
  utf8Size_of_isSpace (by rw [isSpace, h, Bool.true_or])

theorem val_lt_of_isAlpha (h : c.isAlpha) : c.val < 0x80 := by
  have either : (decide (c.val ≥ 'A'.val ∧ c.val ≤ 'Z'.val) ||
      decide (c.val ≥ 'a'.val) && decide (c.val ≤ 'z'.val)) = true := h
  simp only [Bool.or_eq_true, Bool.and_eq_true, decide_eq_true_eq] at either
  grind

theorem utf8Size_of_isAlpha (h : c.isAlpha) : c.utf8Size = 1 := by
  have small := UInt32.lt_iff_toNat_lt.mp (val_lt_of_isAlpha h)
  rw [Char.utf8Size_eq_one_iff, UInt32.le_iff_toNat_le]
  exact Nat.le_of_lt_succ small

theorem utf8Size_of_isDigit (h : isDigit c) : c.utf8Size = 1 := by
  rw [Char.utf8Size_eq_one_iff, UInt32.le_iff_toNat_le]
  simp only [isDigit, Char.isDigit, Bool.and_eq_true, decide_eq_true_eq, ge_iff_le,
    UInt32.le_iff_toNat_le, UInt32.reduceToNat, Char.reduceVal] at h ⊢
  omega

theorem utf8Size_of_isHexDigit (h : isHexDigit c) : c.utf8Size = 1 := by
  rw [Char.utf8Size_eq_one_iff, UInt32.le_iff_toNat_le]
  simp only [isHexDigit, Char.isDigit, Bool.or_eq_true, Bool.and_eq_true, decide_eq_true_eq,
    ge_iff_le, Char.le_def, UInt32.le_iff_toNat_le, UInt32.reduceToNat, Char.reduceVal] at h ⊢
  omega

theorem isBytewise_isLineBreak : IsBytewise isLineBreak :=
  isBytewise_of_ascii fun _ => utf8Size_of_isLineBreak

theorem isBytewise_isBlank : IsBytewise isBlank := isBytewise_of_ascii fun _ => utf8Size_of_isBlank

theorem isBytewise_isDigit : IsBytewise isDigit := isBytewise_of_ascii fun _ => utf8Size_of_isDigit

theorem isBytewise_isNameStart (extended : Bool) : IsBytewise (isNameStart extended) := by
  apply isBytewise_of_outside extended
  intro c more
  have noLetter : c.isAlpha = false := Bool.eq_false_iff.mpr fun is => more (utf8Size_of_isAlpha is)
  have other : (c == '_') = false := by
    apply Bool.eq_false_iff.mpr
    intro same
    rw [beq_iff_eq.mp same] at more
    exact more rfl
  have outside : (0x80 : UInt32) ≤ c.val := lt_val_of_utf8Size more
  rw [isNameStart, noLetter, other, decide_eq_true outside, Bool.and_true, Bool.false_or,
    Bool.false_or]

theorem isBytewise_isNamePart (extended : Bool) : IsBytewise (isNamePart extended) := by
  intro c b member
  rw [isNamePart, isNamePart, isBytewise_isNameStart extended c b member,
    isBytewise_isDigit c b member]

/-- A line break character is its byte, and nothing else begins with that byte. -/
theorem isLineBreak_utf8EncodeChar (h : String.utf8EncodeChar c = b :: rest) :
    isLineBreak (.ofUInt8 b) = isLineBreak c ∧ (isLineBreak c → Char.ofUInt8 b = c) := by
  constructor
  · exact isBytewise_isLineBreak c b (h ▸ List.mem_cons_self)
  · intro breaks
    rw [String.utf8EncodeChar_eq_singleton (utf8Size_of_isLineBreak breaks)] at h
    obtain ⟨rfl, -⟩ := List.cons.inj h
    exact ofUInt8_of_utf8Size (utf8Size_of_isLineBreak breaks)

end LuaFrontend
