set_option autoImplicit false

/-
Sizes are numbers of 64 bits. A sum that does not fit is trapped or wrapped around, as the program
was built; a difference below zero and an access out of range are never let through.
-/

namespace LuaFrontend

/-- How many sizes there are. -/
def sizeCount : Nat := 18446744073709551616

/-- A text that can be kept in memory, where nothing takes more than half of the addresses. -/
def FitsMemory (source : String) : Prop := 2 * source.utf8ByteSize < sizeCount

instance (source : String) : Decidable (FitsMemory source) := Nat.decLt _ _

/-- What becomes of a sum that is no size. -/
inductive Overflow where
  | trapped
  | wrapped
deriving DecidableEq

/-- The sum of two sizes, unless it is trapped. -/
def Overflow.add (o : Overflow) (a b : Nat) : Option Nat :=
  if a + b < sizeCount then some (a + b)
  else
    match o with
    | trapped => none
    | wrapped => some ((a + b) % sizeCount)

/-- The difference of two sizes, if it is one. -/
def sub? (a b : Nat) : Option Nat := if b ≤ a then some (a - b) else none

theorem Overflow.add_of_lt {o : Overflow} {a b : Nat} (h : a + b < sizeCount) :
    o.add a b = some (a + b) :=
  if_pos h

/-- A sum that is not trapped. -/
theorem Overflow.add_eq_mod {o : Overflow} {a b : Nat} (h : o = trapped → a + b < sizeCount) :
    o.add a b = some ((a + b) % sizeCount) := by
  by_cases fits : a + b < sizeCount
  · rw [add_of_lt fits, Nat.mod_eq_of_lt fits]
  · cases o with
    | trapped => exact absurd (h rfl) fits
    | wrapped => rw [add, if_neg fits]

theorem Overflow.trapped_add {a b : Nat} (h : sizeCount ≤ a + b) : trapped.add a b = none := by
  rw [add, if_neg (by omega)]

theorem sub?_of_le {a b : Nat} (h : b ≤ a) : sub? a b = some (a - b) := if_pos h

end LuaFrontend
