import Mathlib.Data.List.Basic
import Mathlib.Algebra.Ring.Nat

/-! # Bits of a 64-bit word

A word as a set of small numbers: testing, setting and clearing the bit `1 << k`, and the search for
the first bit that is clear. -/

namespace Boron

variable {w : BitVec 64} {i k n : Nat}

theorem getLsbD_bit (hk : k < 64) : (1#64 <<< k).getLsbD i = decide (i = k) := by
  rw [BitVec.getLsbD_shiftLeft, BitVec.getLsbD_one]
  grind

theorem and_bit_ne_zero (hk : k < 64) : w &&& 1#64 <<< k ≠ 0 ↔ w.getLsbD k = true := by
  constructor
  · intro h
    by_contra hb
    refine h (BitVec.eq_of_getLsbD_eq fun i _ => ?_)
    rw [BitVec.getLsbD_and, getLsbD_bit hk]
    by_cases hi : i = k
    · subst hi
      simpa using hb
    · simp [hi]
  · intro hb h
    have := congrArg (fun x => BitVec.getLsbD x k) h
    simp [getLsbD_bit hk, hb] at this

theorem getLsbD_or_bit (hk : k < 64) :
    (w ||| 1#64 <<< k).getLsbD i = (w.getLsbD i || decide (i = k)) := by
  rw [BitVec.getLsbD_or, getLsbD_bit hk]

theorem getLsbD_and_not_bit (hk : k < 64) :
    (w &&& ~~~(1#64 <<< k)).getLsbD i = (w.getLsbD i && !decide (i = k)) := by
  rw [BitVec.getLsbD_and, BitVec.getLsbD_not, getLsbD_bit hk]
  by_cases hi : i < 64
  · rw [decide_eq_true hi, Bool.true_and]
  · rw [BitVec.getLsbD_of_ge _ _ (Nat.not_lt.1 hi), Bool.false_and, Bool.false_and]

/-- A bit that was clear before it was set is cleared without a trace. -/
theorem or_bit_and_not_bit (hk : k < 64) (h : w.getLsbD k = false) :
    (w ||| 1#64 <<< k) &&& ~~~(1#64 <<< k) = w := by
  refine BitVec.eq_of_getLsbD_eq fun i _ => ?_
  rw [getLsbD_and_not_bit hk, getLsbD_or_bit hk]
  by_cases hi : i = k
  · rw [hi, h]
    simp
  · simp [hi]

theorem getLsbD_lowBits (hn : n ≤ 64) : (BitVec.ofNat 64 (2 ^ n - 1)).getLsbD i = decide (i < n) := by
  rw [BitVec.getLsbD_ofNat, Nat.testBit_two_pow_sub_one]
  by_cases hi : i < n
  · simp [hi, Nat.lt_of_lt_of_le hi hn]
  · simp [hi]

/-- The first of the lower bits that is clear. -/
def firstClear (w : BitVec 64) (count : Nat) : Option Nat :=
  (List.range count).find? fun i => ~~~w &&& 1#64 <<< i != 0

private theorem not_bit_set (hi : i < 64) :
    (~~~w &&& 1#64 <<< i != 0) = true ↔ w.getLsbD i = false := by
  rw [bne_iff_ne, and_bit_ne_zero hi, BitVec.getLsbD_not, decide_eq_true hi, Bool.true_and,
    Bool.not_eq_true']

theorem firstClear_eq_some (hn : n ≤ 64) (h : firstClear w n = some i) :
    i < n ∧ w.getLsbD i = false := by
  have hi : i < n := List.mem_range.1 (List.mem_of_find?_eq_some h)
  have hc : (~~~w &&& 1#64 <<< i != 0) = true := by
    rw [firstClear] at h
    simpa using List.find?_some h
  exact ⟨hi, (not_bit_set (Nat.lt_of_lt_of_le hi hn)).1 hc⟩

end Boron
