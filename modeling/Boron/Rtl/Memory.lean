import Boron.Rtl.Elf
import Mathlib.Tactic.Ring

/-! # Bytes and little-endian words

The memory a loader works on, as bytes. What `memcpy` of the low bytes of a word leaves behind says
exactly what these bytes are. -/

namespace Boron.Rtl

variable {t : Target}

abbrev Memory (t : Target) := Word t → BitVec 8

namespace Memory

/-- The little-endian number in `n` bytes. -/
def readLe (m : Memory t) (a : Word t) : Nat → Nat
  | 0 => 0
  | n + 1 => (m a).toNat + 256 * readLe m (a + 1) n

/-- `*(uintptr_t*) a`. -/
def readWord (m : Memory t) (a : Word t) : Word t := BitVec.ofNat _ (m.readLe a t.wordBytes)

/-- `*(uint32_t*) a`. -/
def read32 (m : Memory t) (a : Word t) : BitVec 32 := BitVec.ofNat _ (m.readLe a 4)

/-- `*(uint16_t*) a`. -/
def read16 (m : Memory t) (a : Word t) : BitVec 16 := BitVec.ofNat _ (m.readLe a 2)

/-- `memcpy(place, &value, length)`. -/
def memcpy (m : Memory t) (place value : Word t) (length : Nat) : Memory t := fun a =>
  if (a - place).toNat < length then BitVec.ofNat 8 (value.toNat / 256 ^ (a - place).toNat)
  else m a

theorem two_pow_wordBits (t : Target) : 2 ^ t.wordBits = 256 ^ t.wordBytes := by
  rw [t.wordBits_eq, Nat.pow_mul]

/-- Numbers with equal low bytes are equal as far as these go. -/
theorem mod_eq_of_bytes {x y n : Nat} (h : ∀ i < n, x / 256 ^ i % 256 = y / 256 ^ i % 256) :
    x % 256 ^ n = y % 256 ^ n := by
  induction n with
  | zero => simp [Nat.mod_one]
  | succ n ih =>
    rw [Nat.pow_succ, Nat.mod_mul, Nat.mod_mul, ih fun i hi => h i (by omega), h n (by omega)]

theorem bytes_of_mod_eq {x y n : Nat} (h : x % 256 ^ n = y % 256 ^ n) {i : Nat} (hi : i < n) :
    x / 256 ^ i % 256 = y / 256 ^ i % 256 := by
  have hb : ∀ z : Nat, z / 256 ^ i % 256 = z % 256 ^ n / 256 ^ i % 256 := by
    intro z
    obtain ⟨k, rfl⟩ := Nat.exists_eq_add_of_lt hi
    rw [show 256 ^ (i + k + 1) = 256 ^ i * (256 * 256 ^ k) by ring, Nat.mod_mul_right_div_self,
      Nat.mod_mul_right_mod]
  rw [hb x, hb y, h]

/-- **Two copies to one place are equal exactly when the bytes that are copied are.** -/
theorem memcpy_eq_iff (m : Memory t) (place v v' : Word t) {n : Nat} (hn : n ≤ t.wordBytes) :
    m.memcpy place v n = m.memcpy place v' n ↔ v.toNat % 256 ^ n = v'.toNat % 256 ^ n := by
  constructor
  · intro h
    refine mod_eq_of_bytes fun i hi => ?_
    have hlt : i < 2 ^ t.wordBits := by
      have hsl : i < 256 ^ i := Nat.lt_pow_self (by omega)
      have hp : 256 ^ i ≤ 256 ^ t.wordBytes := Nat.pow_le_pow_right (by omega) (by omega)
      rw [two_pow_wordBits]
      omega
    have hof : (place + BitVec.ofNat _ i - place).toNat = i := by
      rw [BitVec.add_comm, BitVec.add_sub_cancel, BitVec.toNat_ofNat, Nat.mod_eq_of_lt hlt]
    have hb := congrFun h (place + BitVec.ofNat _ i)
    simp only [memcpy, hof, if_pos hi] at hb
    simpa using congrArg BitVec.toNat hb
  · intro h
    funext a
    unfold memcpy
    split
    · next hi =>
        apply BitVec.eq_of_toNat_eq
        simpa using bytes_of_mod_eq h hi
    · rfl

/-- Whole words. -/
theorem memcpy_word_eq_iff (m : Memory t) (place v v' : Word t) :
    m.memcpy place v t.wordBytes = m.memcpy place v' t.wordBytes ↔ v = v' := by
  rw [memcpy_eq_iff m place v v' (Nat.le_refl _), ← two_pow_wordBits, Nat.mod_eq_of_lt v.isLt,
    Nat.mod_eq_of_lt v'.isLt]
  exact ⟨BitVec.eq_of_toNat_eq, congrArg _⟩

end Memory

end Boron.Rtl
