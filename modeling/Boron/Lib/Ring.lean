import Mathlib.Data.List.Range
import Mathlib.Data.Nat.ModEq

/-! # Bytes in memory and in a ring

A memory is a function from positions to values. `readAt` and `writeAt` are the contiguous copies
(`memcpy`) out of it and into it. A ring of size `B` keeps a sequence at the positions
`(start + k) % B`; `ringAt` reads it. A write of `xs` right behind the sequence, leaving at least
one position free, appends `xs` to it; moving the start forward drops what was passed over. -/

namespace Boron

open List

variable {α : Type*}

/-! ## Contiguous copies -/

/-- The `n` values from position `i` on. -/
def readAt (mem : Nat → α) (i n : Nat) : List α := (List.range n).map fun k => mem (i + k)

/-- The memory with `xs` copied to position `i`. -/
def writeAt (mem : Nat → α) (i : Nat) (xs : List α) : Nat → α :=
  fun j => if i ≤ j then xs.getD (j - i) (mem j) else mem j

@[simp] theorem length_readAt (mem : Nat → α) (i n : Nat) : (readAt mem i n).length = n := by
  simp [readAt]

variable {i k : Nat}

theorem getElem_readAt (mem : Nat → α) {n : Nat} (h : k < (readAt mem i n).length) :
    (readAt mem i n)[k] = mem (i + k) := by
  simp [readAt]

theorem readAt_add (mem : Nat → α) (i m n : Nat) :
    readAt mem i (m + n) = readAt mem i m ++ readAt mem (i + m) n := by
  simp only [readAt, range_add, map_append, map_map, Function.comp_def, Nat.add_assoc]

theorem readAt_congr {mem mem' : Nat → α} {i' n : Nat}
    (h : ∀ k, k < n → mem (i + k) = mem' (i' + k)) : readAt mem i n = readAt mem' i' n :=
  map_congr_left fun k hk => h k (mem_range.1 hk)

@[simp] theorem writeAt_nil (mem : Nat → α) (i : Nat) : writeAt mem i [] = mem := by
  funext j
  simp [writeAt]

variable {xs : List α}

theorem writeAt_apply_of_lt {mem : Nat → α} (hk : k < xs.length) : writeAt mem i xs (i + k) = xs[k] := by
  simp [writeAt, hk]

theorem writeAt_apply_of_outside {mem : Nat → α} {j : Nat}
    (h : j < i ∨ i + xs.length ≤ j) : writeAt mem i xs j = mem j := by
  rw [writeAt]
  split
  · have hln : xs.length ≤ j - i := by omega
    rw [getD_eq_getElem?_getD, List.getElem?_eq_none hln, Option.getD_none]
  · rfl

/-- A copy in two parts is one copy. -/
theorem writeAt_append (mem : Nat → α) (i : Nat) (xs ys : List α) :
    writeAt (writeAt mem i xs) (i + xs.length) ys = writeAt mem i (xs ++ ys) := by
  funext j
  obtain h | ⟨k, rfl⟩ : j < i ∨ ∃ k, j = i + k := by
    by_cases h : j < i
    · exact .inl h
    · exact .inr ⟨j - i, by omega⟩
  · rw [writeAt_apply_of_outside (.inl (by omega)), writeAt_apply_of_outside (.inl h),
      writeAt_apply_of_outside (.inl h)]
  · by_cases hk : k < xs.length
    · rw [writeAt_apply_of_outside (.inl (by omega)), writeAt_apply_of_lt hk,
        writeAt_apply_of_lt (by rw [length_append]; omega), getElem_append_left hk]
    · obtain ⟨m, rfl⟩ := Nat.exists_eq_add_of_le (Nat.le_of_not_lt hk)
      rw [← Nat.add_assoc]
      by_cases hm : m < ys.length
      · have hlt : xs.length + m < (xs ++ ys).length := by rw [length_append]; omega
        rw [writeAt_apply_of_lt hm, Nat.add_assoc, writeAt_apply_of_lt hlt,
          getElem_append_right (Nat.le_add_right ..)]
        simp only [Nat.add_sub_cancel_left]
      · rw [writeAt_apply_of_outside (.inr (by omega)), writeAt_apply_of_outside (.inr (by omega)),
          writeAt_apply_of_outside (.inr (by rw [length_append]; omega))]

/-- Reading what precedes a copy, and the copy itself. -/
theorem readAt_writeAt (mem : Nat → α) (i n : Nat) (xs : List α) :
    readAt (writeAt mem (i + n) xs) i (n + xs.length) = readAt mem i n ++ xs := by
  rw [readAt_add]
  congr 1
  · refine readAt_congr fun k hk => writeAt_apply_of_outside (.inl ?_)
    omega
  · refine ext_getElem (length_readAt ..) fun k hk hk' => ?_
    rw [getElem_readAt, writeAt_apply_of_lt hk']

/-- Reading a copy back. -/
theorem readAt_writeAt_self (mem : Nat → α) (i : Nat) {n : Nat} (h : xs.length = n) :
    readAt (writeAt mem i xs) i n = xs := by
  have := readAt_writeAt mem i 0 xs
  rwa [Nat.zero_add, h] at this

/-! ## Rings -/

/-- The `n` values of a ring from position `start` on. -/
def ringAt (B : Nat) (mem : Nat → α) (start n : Nat) : List α :=
  (List.range n).map fun k => mem ((start + k) % B)

variable {B : Nat} {mem mem' : Nat → α} {start n : Nat}

@[simp] theorem length_ringAt : (ringAt B mem start n).length = n := by simp [ringAt]

theorem ringAt_add (B : Nat) (mem : Nat → α) (start m n : Nat) :
    ringAt B mem start (m + n) = ringAt B mem start m ++ ringAt B mem (start + m) n := by
  simp only [ringAt, range_add, map_append, map_map, Function.comp_def, Nat.add_assoc]

theorem ringAt_congr (h : ∀ k, k < n → mem ((start + k) % B) = mem' ((start + k) % B)) :
    ringAt B mem start n = ringAt B mem' start n :=
  map_congr_left fun k hk => h k (mem_range.1 hk)

theorem ringAt_mod (B : Nat) (mem : Nat → α) (start n : Nat) :
    ringAt B mem (start % B) n = ringAt B mem start n := by
  simp only [ringAt, Nat.mod_add_mod]

/-- A part of the ring that does not wrap around is contiguous. -/
theorem ringAt_eq_readAt (h : start + n ≤ B) : ringAt B mem start n = readAt mem start n := by
  refine map_congr_left fun k hk => ?_
  have hlt : k < n := mem_range.1 hk
  rw [Nat.mod_eq_of_lt (by omega)]

/-- A part of the ring that wraps around is two contiguous parts. -/
theorem ringAt_eq_readAt_append (hs : start ≤ B) (h : B ≤ start + n) (hn : n ≤ B) : ringAt B mem start n
      = readAt mem start (B - start) ++ readAt mem 0 (n - (B - start)) := by
  obtain ⟨m, rfl⟩ : ∃ m, n = (B - start) + m := ⟨n - (B - start), by omega⟩
  have hB : start + (B - start) = B := by omega
  rw [ringAt_add, ringAt_eq_readAt (by omega), hB, ← ringAt_mod, Nat.mod_self,
    ringAt_eq_readAt (by omega), Nat.add_sub_cancel_left]

theorem wrap_eq_mod {a : Nat} (h : a < 2 * B) : (if B ≤ a then a - B else a) = a % B := by
  split
  · next hle =>
      rw [Nat.mod_eq_sub_mod hle, Nat.mod_eq_of_lt]
      omega
  · next hlt => exact (Nat.mod_eq_of_lt (by omega)).symm

/-- Positions of a ring less than one turn apart are different. -/
theorem ring_ne {j : Nat} (hj : j < k) (hB : k - j < B) : (start + j) % B ≠ (start + k) % B := by
  intro h
  have hdv : B ∣ (start + k) - (start + j) := (Nat.modEq_iff_dvd' (by omega)).1 h
  have := Nat.le_of_dvd (by omega) hdv
  omega

/-- `mem'` is `mem` with `xs` written around the ring from `start` on. -/
structure RingWrite (B : Nat) (mem : Nat → α) (start : Nat) (xs : List α) (mem' : Nat → α) :
    Prop where
  here : ∀ k (hk : k < xs.length), mem' ((start + k) % B) = xs[k]
  elsewhere : ∀ i, i < B → (∀ k, k < xs.length → i ≠ (start + k) % B) → mem' i = mem i

theorem RingWrite.of_mod (h : RingWrite B mem (start % B) xs mem') : RingWrite B mem start xs mem' where
  here k hk := by rw [← Nat.mod_add_mod, h.here k hk]
  elsewhere i hi hne := h.elsewhere i hi fun k hk => by rw [Nat.mod_add_mod]; exact hne k hk

theorem RingWrite.contiguous (h : start + xs.length ≤ B) :
    RingWrite B mem start xs (writeAt mem start xs) where
  here k hk := by rw [Nat.mod_eq_of_lt (by omega), writeAt_apply_of_lt hk]
  elsewhere i hi hne := by
    refine writeAt_apply_of_outside ?_
    by_contra hin
    refine hne (i - start) (by omega) ?_
    rw [Nat.mod_eq_of_lt (by omega)]
    omega

/-- A write that wraps around is two contiguous writes. -/
theorem RingWrite.split {ys : List α} (hs : start + xs.length = B) (hy : ys.length ≤ start) :
    RingWrite B mem start (xs ++ ys) (writeAt (writeAt mem start xs) 0 ys) where
  here k hk := by
    by_cases hx : k < xs.length
    · rw [Nat.mod_eq_of_lt (by omega), writeAt_apply_of_outside (.inr (by omega)),
        writeAt_apply_of_lt hx, getElem_append_left hx]
    · obtain ⟨m, rfl⟩ := Nat.exists_eq_add_of_le (Nat.le_of_not_lt hx)
      have hm : m < ys.length := by
        rw [length_append] at hk
        omega
      have hpos : (start + (xs.length + m)) % B = 0 + m := by
        rw [← Nat.add_assoc, hs, Nat.add_mod_left, Nat.mod_eq_of_lt (by omega), Nat.zero_add]
      rw [hpos, writeAt_apply_of_lt hm, getElem_append_right (Nat.le_add_right ..)]
      simp only [Nat.add_sub_cancel_left]
  elsewhere i hi hne := by
    have hw : ys.length ≤ i := by
      by_contra hlt
      refine hne (xs.length + i) (by rw [length_append]; omega) ?_
      rw [← Nat.add_assoc, hs, Nat.add_mod_left, Nat.mod_eq_of_lt hi]
    have hh : i < start := by
      by_contra hge
      refine hne (i - start) (by rw [length_append]; omega) ?_
      rw [show start + (i - start) = i by omega, Nat.mod_eq_of_lt hi]
    rw [writeAt_apply_of_outside (.inr (by omega)), writeAt_apply_of_outside (.inl hh)]

/-- **Writing behind the sequence appends to it.** -/
theorem RingWrite.append (h : RingWrite B mem (start + n) xs mem') (hrm : n + xs.length < B) :
    ringAt B mem' start (n + xs.length) = ringAt B mem start n ++ xs := by
  rw [ringAt_add]
  congr 1
  · refine ringAt_congr fun k hk => h.elsewhere _ (Nat.mod_lt _ (by omega)) fun j hj => ?_
    rw [Nat.add_assoc]
    exact ring_ne (by omega) (by omega)
  · refine ext_getElem length_ringAt fun k hk hk' => ?_
    simp only [ringAt, getElem_map, getElem_range, h.here k hk']

end Boron
