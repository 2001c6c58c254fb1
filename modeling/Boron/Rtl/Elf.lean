import Mathlib.Data.BitVec

/-! # Words of a target

The loader code of the kernel and of the user library is built for three targets. What they share is
that an address is one word, `uintptr_t`, and that words are what gets relocated. -/

namespace Boron.Rtl

/-- `TARGET_AMD64`, `TARGET_I386` and `TARGET_ARM`. -/
inductive Target
  | amd64
  | i386
  | arm
  deriving DecidableEq, Repr

/-- The width of `uintptr_t` in bits. -/
def Target.wordBits : Target → Nat
  | .amd64 => 64
  | .i386 => 32
  | .arm => 32

/-- `sizeof(uintptr_t)`. -/
def Target.wordBytes (t : Target) : Nat := t.wordBits / 8

/-- A C string, as its bytes before the terminator. -/
abbrev CString := List (BitVec 8)

/-- `uintptr_t`. -/
abbrev Word (t : Target) := BitVec t.wordBits

theorem Target.wordBits_eq (t : Target) : t.wordBits = 8 * t.wordBytes := by
  cases t <;> rfl

theorem Target.wordBytes_pos (t : Target) : 0 < t.wordBytes := by
  cases t <;> decide

end Boron.Rtl
