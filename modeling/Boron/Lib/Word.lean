import Mathlib.Logic.Function.Basic

/-! # Unsigned 64-bit arithmetic on natural numbers

`uintptr_t`, `size_t` and `uint64_t` values are natural numbers below `wordSize`; the operators of the
source that wrap are the functions below. Each comes with the lemma that says when it does not.
They are irreducible: a definitional unfolding would count to `2 ^ 64` in unary. -/

namespace Boron

/-- `2 ^ 64`. -/
def wordSize : Nat := 18446744073709551616

/-- `a + b` in 64 bits. -/
@[irreducible] def addW (a b : Nat) : Nat := (a + b) % wordSize

/-- `a - b` in 64 bits. -/
@[irreducible] def subW (a b : Nat) : Nat := (a + (wordSize - b % wordSize)) % wordSize

/-- `a * b` in 64 bits. -/
@[irreducible] def mulW (a b : Nat) : Nat := (a * b) % wordSize

theorem addW_of_lt {a b : Nat} (h : a + b < wordSize) : addW a b = a + b := by
  rw [addW, Nat.mod_eq_of_lt h]

theorem mulW_of_lt {a b : Nat} (h : a * b < wordSize) : mulW a b = a * b := by
  rw [mulW, Nat.mod_eq_of_lt h]

theorem subW_of_le {a b : Nat} (h : b ≤ a) (ha : a < wordSize) : subW a b = a - b := by
  rw [subW, Nat.mod_eq_of_lt (Nat.lt_of_le_of_lt h ha)]
  unfold wordSize at *
  omega

theorem addW_lt (a b : Nat) : addW a b < wordSize := by
  rw [addW]
  exact Nat.mod_lt _ (by decide)

theorem mulW_lt (a b : Nat) : mulW a b < wordSize := by
  rw [mulW]
  exact Nat.mod_lt _ (by decide)

end Boron
