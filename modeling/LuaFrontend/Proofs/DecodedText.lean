import LuaFrontend.Source.Utf8

set_option autoImplicit false

namespace LuaFrontend.Utf8

variable {u : Unfinished} {b : UInt8} {bytes rest : List UInt8} {v : Nat}

/-- The byte can go on the character in the making. -/
def Unfinished.Takes (u : Unfinished) (b : UInt8) : Prop :=
  u.least.toNat ≤ b.toNat ∧ b.toNat ≤ u.greatest.toNat

/-- The bits with those of one more byte. -/
def Unfinished.bitsWith (u : Unfinished) (b : UInt8) : Nat := u.bits * 64 + (b.toNat - 0x80)

theorem step_of_takes (h : u.Takes b) :
    step (some u) b =
      if u.owed ≤ 1 then ([Char.ofNat (u.bitsWith b)], none)
      else ([], some { bits := u.bitsWith b, owed := u.owed - 1 }) := by
  have inRange : (decide (u.least ≤ b) && decide (b ≤ u.greatest)) = true := by
    rw [Bool.and_eq_true, decide_eq_true_iff, decide_eq_true_iff]
    exact h
  rw [step, if_pos inRange]
  rfl

theorem decodeFrom_last (h : u.Takes b) (last : u.owed = 1) :
    decodeFrom (some u) (b :: rest) = Char.ofNat (u.bitsWith b) :: decodeFrom none rest := by
  rw [decodeFrom, step_of_takes h, if_pos (Nat.le_of_eq last)]
  rfl

theorem decodeFrom_more {owed : Nat} (h : u.Takes b) (more : u.owed = owed + 2) :
    decodeFrom (some u) (b :: rest) =
      decodeFrom (some { bits := u.bitsWith b, owed := owed + 1 }) rest := by
  rw [decodeFrom, step_of_takes h, if_neg (by omega), more]
  rfl

theorem decodeFrom_first (h : first b = ([], some u)) :
    decodeFrom none (b :: rest) = decodeFrom (some u) rest := by
  rw [decodeFrom, step, h]
  rfl

/-- A byte from inside a character goes on any character but those that begin with the least or the
greatest bytes of their length. -/
theorem takes_tail {bits owed : Nat} : Unfinished.Takes { bits, owed } (.ofNat (v % 64 + 128)) := by
  simp only [Unfinished.Takes, UInt8.toNat_ofNat', UInt8.reduceToNat]
  omega

theorem bitsWith_tail (u : Unfinished) :
    u.bitsWith (.ofNat (v % 64 + 128)) = u.bits * 64 + v % 64 := by
  have value : (UInt8.ofNat (v % 64 + 128)).toNat = v % 64 + 128 := by
    rw [UInt8.toNat_ofNat']
    omega
  dsimp only [Unfinished.bitsWith]
  rw [value, Nat.add_sub_cancel]

section Lengths

theorem decodeFrom_one (small : v ≤ 127) :
    decodeFrom none (.ofNat v :: rest) = Char.ofNat v :: decodeFrom none rest := by
  have value : (UInt8.ofNat v).toNat = v := by
    rw [UInt8.toNat_ofNat', Nat.mod_eq_of_lt (by omega)]
  have ascii : UInt8.ofNat v < 0x80 := by
    rw [UInt8.lt_iff_toNat_lt, value]
    exact Nat.lt_succ_of_le small
  rw [decodeFrom, step, first, if_pos ascii, value]
  rfl

/-- The first of two bytes. -/
theorem first_of_two (least : 127 < v) (greatest : v ≤ 2047) :
    first (.ofNat (v / 64 % 32 + 192)) = ([], some { bits := v / 64, owed := 1 }) := by
  have value : (UInt8.ofNat (v / 64 % 32 + 192)).toNat = v / 64 + 192 := by
    rw [UInt8.toNat_ofNat']
    omega
  simp only [first, UInt8.lt_iff_toNat_lt, value, UInt8.reduceToNat]
  rw [if_neg (by omega), if_neg (by omega), if_pos (by omega), Nat.add_sub_cancel]

theorem decodeFrom_two (least : 127 < v) (greatest : v ≤ 2047) :
    decodeFrom none (.ofNat (v / 64 % 32 + 192) :: .ofNat (v % 64 + 128) :: rest) =
      Char.ofNat v :: decodeFrom none rest := by
  rw [decodeFrom_first (first_of_two least greatest), decodeFrom_last takes_tail rfl,
    bitsWith_tail, Nat.div_add_mod']

/-- The first of three bytes. The ranges of the second byte leave out what two bytes can say, and
the surrogates. -/
theorem first_of_three (least : 2047 < v) (greatest : v ≤ 65535)
    (valid : v < 55296 ∨ 57343 < v) :
    ∃ u, first (.ofNat (v / 4096 % 16 + 224)) = ([], some u) ∧ u.bits = v / 4096 ∧ u.owed = 2 ∧
      u.Takes (.ofNat (v / 64 % 64 + 128)) := by
  have value : (UInt8.ofNat (v / 4096 % 16 + 224)).toNat = v / 4096 + 224 := by
    rw [UInt8.toNat_ofNat']
    omega
  have second : (UInt8.ofNat (v / 64 % 64 + 128)).toNat = v / 64 % 64 + 128 := by
    rw [UInt8.toNat_ofNat']
    omega
  simp only [first, UInt8.lt_iff_toNat_lt, ← UInt8.toNat_inj, value, UInt8.reduceToNat,
    Unfinished.Takes, second]
  rw [if_neg (by omega), if_neg (by omega), if_neg (by omega)]
  split
  · refine ⟨_, rfl, ?_, rfl, ?_⟩ <;> simp only [UInt8.reduceToNat] <;> omega
  split
  · refine ⟨_, rfl, ?_, rfl, ?_⟩ <;> simp only [UInt8.reduceToNat] <;> omega
  rw [if_pos (by omega)]
  refine ⟨_, rfl, ?_, rfl, ?_⟩ <;> simp only [UInt8.reduceToNat] <;> omega

theorem decodeFrom_three (least : 2047 < v) (greatest : v ≤ 65535)
    (valid : v < 55296 ∨ 57343 < v) :
    decodeFrom none (.ofNat (v / 4096 % 16 + 224) :: .ofNat (v / 64 % 64 + 128) ::
      .ofNat (v % 64 + 128) :: rest) = Char.ofNat v :: decodeFrom none rest := by
  obtain ⟨u, begins, bits, owed, takes⟩ := first_of_three least greatest valid
  have all : (v / 4096 * 64 + v / 64 % 64) * 64 + v % 64 = v := by omega
  rw [decodeFrom_first begins, decodeFrom_more takes owed, decodeFrom_last takes_tail rfl,
    bitsWith_tail, bitsWith_tail, bits, all]

/-- The first of four bytes. The ranges of the second byte leave out what three bytes can say, and
what is no character any more. -/
theorem first_of_four (least : 65535 < v) (greatest : v < 1114112) :
    ∃ u, first (.ofNat (v / 262144 % 8 + 240)) = ([], some u) ∧ u.bits = v / 262144 ∧ u.owed = 3 ∧
      u.Takes (.ofNat (v / 4096 % 64 + 128)) := by
  have value : (UInt8.ofNat (v / 262144 % 8 + 240)).toNat = v / 262144 + 240 := by
    rw [UInt8.toNat_ofNat']
    omega
  have second : (UInt8.ofNat (v / 4096 % 64 + 128)).toNat = v / 4096 % 64 + 128 := by
    rw [UInt8.toNat_ofNat']
    omega
  simp only [first, UInt8.lt_iff_toNat_lt, ← UInt8.toNat_inj, value, UInt8.reduceToNat,
    Unfinished.Takes, second]
  rw [if_neg (by omega), if_neg (by omega), if_neg (by omega), if_neg (by omega),
    if_neg (by omega), if_neg (by omega)]
  split
  · refine ⟨_, rfl, ?_, rfl, ?_⟩ <;> simp only [UInt8.reduceToNat] <;> omega
  split
  · refine ⟨_, rfl, ?_, rfl, ?_⟩ <;> simp only [UInt8.reduceToNat] <;> omega
  rw [if_pos (by omega)]
  refine ⟨_, rfl, ?_, rfl, ?_⟩ <;> simp only [UInt8.reduceToNat] <;> omega

theorem decodeFrom_four (least : 65535 < v) (greatest : v < 1114112) :
    decodeFrom none (.ofNat (v / 262144 % 8 + 240) :: .ofNat (v / 4096 % 64 + 128) ::
      .ofNat (v / 64 % 64 + 128) :: .ofNat (v % 64 + 128) :: rest) =
        Char.ofNat v :: decodeFrom none rest := by
  obtain ⟨u, begins, bits, owed, takes⟩ := first_of_four least greatest
  have all : ((v / 262144 * 64 + v / 4096 % 64) * 64 + v / 64 % 64) * 64 + v % 64 = v := by omega
  rw [decodeFrom_first begins, decodeFrom_more takes owed, decodeFrom_more takes_tail rfl,
    decodeFrom_last takes_tail rfl, bitsWith_tail, bitsWith_tail, bitsWith_tail, bits, all]

end Lengths

/-- A character is read from its bytes. -/
theorem decodeFrom_encode (c : Char) (rest : List UInt8) :
    decodeFrom none (String.utf8EncodeChar c ++ rest) = c :: decodeFrom none rest := by
  have valid : c.val.toNat < 55296 ∨ 57343 < c.val.toNat ∧ c.val.toNat < 1114112 := c.valid
  have same : Char.ofNat c.val.toNat = c := c.ofNat_toNat
  unfold String.utf8EncodeChar
  generalize c.val.toNat = v at valid same
  rw [← same]
  dsimp only
  split
  · next small => exact decodeFrom_one small
  split
  · exact decodeFrom_two (by omega) (by omega)
  split
  · exact decodeFrom_three (by omega) (by omega) (by omega)
  · exact decodeFrom_four (by omega) (by omega)

/-- Nothing is lost where a text is encoded and read again. -/
theorem decodeLossy_encode (text : List Char) :
    decodeLossy (text.flatMap String.utf8EncodeChar) = text := by
  unfold decodeLossy
  induction text with
  | nil => rfl
  | cons c text ih => rw [List.flatMap_cons, decodeFrom_encode, ih]

theorem decode?_encode (text : List Char) :
    decode? (text.flatMap String.utf8EncodeChar) = some text := by
  rw [decode?, decodeLossy_encode]
  exact if_pos rfl

/-- The first byte of a character announces how many there are. -/
theorem announcedWidth_of_encode {c : Char} (h : String.utf8EncodeChar c = b :: rest) :
    announcedWidth b = c.utf8Size := by
  have valid : c.val.toNat < 55296 ∨ 57343 < c.val.toNat ∧ c.val.toNat < 1114112 := c.valid
  have size := congrArg List.length h
  rw [String.length_utf8EncodeChar] at size
  rw [size]
  simp only [String.utf8EncodeChar] at h
  generalize c.val.toNat = v at valid h
  simp only [announcedWidth, UInt8.lt_iff_toNat_lt, UInt8.reduceToNat]
  split at h
  · obtain ⟨rfl, rfl⟩ := List.cons.inj h
    rw [UInt8.toNat_ofNat', if_pos (by omega)]
    rfl
  split at h
  · obtain ⟨rfl, rfl⟩ := List.cons.inj h
    rw [UInt8.toNat_ofNat', if_neg (by omega), if_pos (by omega)]
    rfl
  split at h
  · obtain ⟨rfl, rfl⟩ := List.cons.inj h
    rw [UInt8.toNat_ofNat', if_neg (by omega), if_neg (by omega), if_pos (by omega)]
    rfl
  · obtain ⟨rfl, rfl⟩ := List.cons.inj h
    rw [UInt8.toNat_ofNat', if_neg (by omega), if_neg (by omega), if_neg (by omega)]
    rfl

end LuaFrontend.Utf8
