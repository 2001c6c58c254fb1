import Boron.Mm.Slab

/-! # The blocks of a slab item (`mm/slab.c`)

`1 << Index` is a shift of an `int`: bit 31 of it is the sign, and stands for all bits from 31 on of
a word of the bitmap. `Tracks` says which blocks a bitmap has in use when all of them are among the
first 32. As long as one of these is free, or there are no others, a search of the item is right and
shifts by less than 32. -/

namespace Boron.Mm

/-! ## Bits -/

theorem getLsbD_intBit (p : Port) {j i : Nat} (hj : j < 32) (hi : i < 64) :
    (intBit p j).getLsbD i = decide (min i 31 = j) := by
  have hb : ((1#32 <<< j).signExtend 64).getLsbD i = decide (min i 31 = j) := by
    rw [BitVec.getLsbD_signExtend, decide_eq_true hi, Bool.true_and]
    by_cases hw : i < 32
    · rw [if_pos hw, BitVec.getLsbD_shiftLeft, BitVec.getLsbD_one]
      simp only [decide_eq_true hw, Bool.true_and]
      rw [Bool.eq_iff_iff]
      simp only [Bool.and_eq_true, Bool.not_eq_true', decide_eq_false_iff_not, decide_eq_true_eq]
      omega
    · rw [if_neg hw, BitVec.msb_eq_getLsbD_last, BitVec.getLsbD_shiftLeft, BitVec.getLsbD_one]
      rw [Bool.eq_iff_iff]
      simp only [Bool.and_eq_true, Bool.not_eq_true', decide_eq_false_iff_not, decide_eq_true_eq]
      omega
  cases p with
  | arm => exact hb
  | _ =>
    unfold intBit
    rw [Nat.mod_eq_of_lt hj]
    exact hb

namespace SlabItem

variable {p : Port} {it : SlabItem} {itemSize : Nat} {used : Nat → Prop} {j : Nat}

/-- The blocks in use are those of the bitmap, and are among the first 32. -/
structure Tracks (p : Port) (it : SlabItem) (itemSize : Nat) (used : Nat → Prop) : Prop where
  bits : ∀ i < 64, (it.bitmap 0).getLsbD i = true ↔ used (min i 31)
  words : ∀ w, w ≠ 0 → it.bitmap w = 0
  bound : ∀ j, used j → j < 32 ∧ j < it.entries p itemSize

theorem tracks_zero (p : Port) (page len itemSize : Nat) (np : Bool) (sc : Nat) :
    Tracks p ⟨page, len, fun _ => 0, np, sc⟩ itemSize fun _ => False where
  bits i _ := by simp
  words _ _ := rfl
  bound _ h := h.elim

section

variable (h : it.Tracks p itemSize used)
include h

theorem Tracks.congr {used' : Nat → Prop}
    (hu : ∀ j, used' j ↔ used j) : it.Tracks p itemSize used' where
  bits i hi := (h.bits i hi).trans (hu _).symm
  words := h.words
  bound j hj := h.bound j ((hu j).1 hj)

/-- What the search asks of an index. -/
theorem Tracks.test (hj : j < 32) :
    (~~~it.bitmap 0 &&& intBit p j != 0) = true ↔ ¬ used j := by
  rw [bne_iff_ne]
  constructor
  · intro hne hu
    refine hne (BitVec.eq_of_getLsbD_eq fun i hi => ?_)
    rw [BitVec.getLsbD_and, getLsbD_intBit p hj hi, BitVec.getLsbD_not]
    by_cases hij : min i 31 = j
    · rw [(h.bits i hi).2 (hij ▸ hu)]
      simp
    · simp [hij]
  · intro hfr heq
    have hb := congrArg (fun x => x.getLsbD j) heq
    have hmn : min j 31 = j := by omega
    have hc : (it.bitmap 0).getLsbD j = false := by
      rw [Bool.eq_false_iff]
      intro hst
      exact hfr (hmn ▸ (h.bits j (by omega)).1 hst)
    rw [BitVec.getLsbD_and, getLsbD_intBit p hj (by omega), BitVec.getLsbD_not, hc] at hb
    simp [hmn, show j < 64 by omega] at hb

/-- The search of the first word finds the first free block. -/
theorem Tracks.freeIndex_some {count : Nat} (hj : j < 32)
    (hcount : j < count) (hfr : ¬ used j) :
    ∃ k ≤ j, ¬ used k ∧ freeIndex p (it.bitmap 0) count = some k := by
  have hsm : ((List.range count).find? fun index => ~~~it.bitmap 0 &&& intBit p index != 0).isSome
      = true := List.find?_isSome.2 ⟨j, List.mem_range.2 hcount, (h.test hj).2 hfr⟩
  obtain ⟨k, hk⟩ := Option.isSome_iff_exists.1 hsm
  obtain ⟨hts, -, hfs⟩ := List.find?_range_eq_some.1 hk
  have hle : k ≤ j := by
    by_contra hlt
    have hnt := hfs j (by omega)
    rw [(h.test hj).2 hfr] at hnt
    cases hnt
  exact ⟨k, hle, (h.test (by omega)).1 hts, hk⟩

theorem Tracks.freeIndex_none {count : Nat} (hcount : count ≤ 32)
    (hfl : ∀ j < count, used j) : freeIndex p (it.bitmap 0) count = none := by
  refine List.find?_eq_none.2 fun j hj hts => ?_
  have hlt := List.mem_range.1 hj
  exact (h.test (by omega)).1 hts (hfl j hlt)

end

/-! ## Searches -/

/-- The values by which the outer loop of `MmpSlabItemTryAllocate` shifts. -/
def searchShifts (p : Port) (it : SlabItem) (itemSize : Nat) : Nat → Nat → List Nat
  | 0, _ => []
  | left + 1, w =>
    let last := it.entries p itemSize % 64
    let count := if left = 0 ∧ last ≠ 0 then last else 64
    match freeIndex p (it.bitmap w) count with
    | some i => List.range (i + 1)
    | none => List.range count ++ searchShifts p it itemSize left (w + 1)

/-- The values by which `MmpSlabItemTryAllocate` shifts. -/
def shifts (p : Port) (it : SlabItem) (itemSize : Nat) : List Nat :=
  it.searchShifts p itemSize ((it.entries p itemSize + 63) / 64) 0

theorem bitmap_setWord (w : Nat) (x : BitVec 64) : (it.setWord w x).bitmap w = x :=
  Function.update_self ..

theorem bitmap_setWord_of_ne {w v : Nat} (hv : v ≠ w) (x : BitVec 64) :
    (it.setWord w x).bitmap v = it.bitmap v := Function.update_of_ne hv ..

theorem entries_setWord (w : Nat) (x : BitVec 64) :
    (it.setWord w x).entries p itemSize = it.entries p itemSize := rfl

/-- One of the first 32 blocks is free: the first of these is taken. -/
theorem Tracks.tryAllocate_some (h : it.Tracks p itemSize used) (hj : j < 32)
    (he : j < it.entries p itemSize) (hfr : ¬ used j) :
    ∃ k ≤ j, ¬ used k ∧ it.shifts p itemSize = List.range (k + 1) ∧
      it.mmpSlabItemTryAllocate p itemSize = some
        (it.setWord 0 (it.bitmap 0 ||| intBit p k), some (it.slotAddress p itemSize 0 k)) := by
  obtain ⟨left, hlf⟩ : ∃ left, (it.entries p itemSize + 63) / 64 = left + 1 :=
    ⟨(it.entries p itemSize + 63) / 64 - 1, by omega⟩
  have hcount : j < if left = 0 ∧ it.entries p itemSize % 64 ≠ 0 then it.entries p itemSize % 64
      else 64 := by
    split
    · omega
    · omega
  obtain ⟨k, hle, hk, hfn⟩ := h.freeIndex_some hj hcount hfr
  refine ⟨k, hle, hk, ?_, ?_⟩
  · rw [shifts, hlf, searchShifts, hfn]
  · rw [mmpSlabItemTryAllocate, hlf, searchWords, if_neg (by omega)]
    dsimp only
    rw [hfn]
    rfl

theorem Tracks.tryAllocate_none (h : it.Tracks p itemSize used)
    (he : it.entries p itemSize ≤ 32) (hfl : ∀ j < it.entries p itemSize, used j) :
    it.shifts p itemSize = List.range (it.entries p itemSize) ∧
      it.mmpSlabItemTryAllocate p itemSize = some (it, none) := by
  by_cases hz : it.entries p itemSize = 0
  · rw [shifts, mmpSlabItemTryAllocate, hz]
    exact ⟨rfl, rfl⟩
  · have hlf : (it.entries p itemSize + 63) / 64 = 0 + 1 := by omega
    have hmd : it.entries p itemSize % 64 = it.entries p itemSize := by omega
    have hnn := h.freeIndex_none he hfl
    constructor
    · rw [shifts, hlf, searchShifts, hmd, if_pos ⟨rfl, hz⟩, hnn]
      exact List.append_nil _
    · rw [mmpSlabItemTryAllocate, hlf, searchWords, if_neg (by omega)]
      dsimp only
      rw [hmd, if_pos ⟨rfl, hz⟩, hnn]
      rfl

/-! ## Changes -/

theorem Tracks.take (h : it.Tracks p itemSize used) (hj : j < 32) (he : j < it.entries p itemSize) :
    (it.setWord 0 (it.bitmap 0 ||| intBit p j)).Tracks p itemSize fun i => used i ∨ i = j where
  bits i hi := by
    rw [bitmap_setWord, BitVec.getLsbD_or, getLsbD_intBit p hj hi, Bool.or_eq_true,
      h.bits i hi, decide_eq_true_eq]
  words w hw := by
    rw [bitmap_setWord_of_ne hw]
    exact h.words w hw
  bound i hi := by
    rw [entries_setWord]
    rcases hi with hi | rfl
    · exact h.bound i hi
    · exact ⟨hj, he⟩

theorem Tracks.drop (h : it.Tracks p itemSize used) (hj : j < 32) :
    (it.setWord 0 (it.bitmap 0 &&& ~~~intBit p j)).Tracks p itemSize fun i => used i ∧ i ≠ j where
  bits i hi := by
    rw [bitmap_setWord, BitVec.getLsbD_and, BitVec.getLsbD_not,
      getLsbD_intBit p hj hi, decide_eq_true hi, Bool.true_and, Bool.and_eq_true, h.bits i hi,
      Bool.not_eq_true', decide_eq_false_iff_not]
  words w hw := by
    rw [bitmap_setWord_of_ne hw]
    exact h.words w hw
  bound i hi := by
    rw [entries_setWord]
    exact h.bound i hi.1

theorem Tracks.isUnused_iff (h : it.Tracks p itemSize used) (size : Nat) :
    Pool.isUnused it size = true ↔ ∀ j, ¬ used j := by
  have hw : it.bitmap 1 = 0 ∧ it.bitmap 2 = 0 ∧ it.bitmap 3 = 0 :=
    ⟨h.words 1 (by decide), h.words 2 (by decide), h.words 3 (by decide)⟩
  have hz : Pool.isUnused it size = true ↔ it.bitmap 0 = 0 := by
    simp [Pool.isUnused, hw]
  rw [hz]
  constructor
  · intro heq j hj
    obtain ⟨hlt, -⟩ := h.bound j hj
    have hmn : min j 31 = j := by omega
    have hb := (h.bits j (by omega)).2 (hmn.symm ▸ hj)
    rw [heq] at hb
    simp at hb
  · intro hnn
    refine BitVec.eq_of_getLsbD_eq fun i hi => ?_
    rw [Bool.eq_false_iff.2 fun hst => hnn _ ((h.bits i hi).1 hst)]
    simp

end SlabItem

/-! ## Where blocks lie -/

theorem SlabSizes.size_bounds (z : SlabSizes) {k : Nat} (hk : k < slabSizeCount) :
    8 ≤ z.size k ∧ z.size k ≤ 32768 := by
  match k with
  | 0 => exact ⟨by have := z.thread_ge; rw [SlabSizes.size]; omega, z.thread_le⟩
  | 1 => exact ⟨by have := z.process_ge; rw [SlabSizes.size]; omega, z.process_le⟩
  | k + 2 =>
    have ha : ∀ i < 17, 8 ≤ genericSizes.getD i 0 ∧ genericSizes.getD i 0 ≤ 32768 := by decide
    exact ha k (by unfold slabSizeCount at hk; omega)

theorem slabHeader_le (p : Port) : slabHeader p ≤ 64 := by
  cases p <;> decide

/-- A new item has room for at least one block. -/
theorem entries_pos (p : Port) {size : Nat} (hlo : 8 ≤ size) :
    0 < (mmpSlabItemDetermineLength size - slabHeader p) / size := by
  have hh := slabHeader_le p
  refine Nat.div_pos ?_ (by omega)
  unfold mmpSlabItemDetermineLength
  rw [show pageSize = 4096 from rfl]
  split
  · omega
  · omega

theorem length_pages (size : Nat) : ∃ n, mmpSlabItemDetermineLength size = (n + 1) * pageSize := by
  unfold mmpSlabItemDetermineLength
  rw [show pageSize = 4096 from rfl]
  split
  · exact ⟨0, rfl⟩
  · exact ⟨(size * 4 + 4096 - 1) / 4096 - 1, by rw [Nat.sub_add_cancel (by omega)]⟩

theorem block_end_le {p : Port} {length size j : Nat} (hsize : 0 < size)
    (hj : j < (length - slabHeader p) / size) : slabHeader p + j * size + size ≤ length := by
  have hml := (Nat.le_div_iff_mul_le hsize).1 (Nat.succ_le_of_lt hj)
  rw [Nat.succ_mul] at hml
  have hpos : 0 < (length - slabHeader p) := by
    by_contra hz
    rw [Nat.eq_zero_of_not_pos hz, Nat.zero_div] at hj
    omega
  omega

end Boron.Mm
