import Mathlib.Algebra.Ring.Nat

/-! # Where a page of a file belongs (`mm/pmm.c`, `mm/pfn.h`, `mm/mpw.c`)

The PFN database keeps the page number within the file in two fields, of 32 and of 16 bits.
`PFDBE_Offset` puts the upper one back 16 bits too low, so that the page comes back just if it has no
upper part (`cacheDetails_right_iff`). -/

namespace Boron.Mm

abbrev filePageSize : BitVec 64 := 0x1000

/-- The fields of an `MMPFDBE` that say which page of which file a frame holds, on a 64-bit target. -/
structure CacheDetails where
  fcb : BitVec 48
  offsetLower : BitVec 32
  offsetUpper : BitVec 16
  isFileCache : Bool
  modified : Bool

namespace CacheDetails

def mmSetCacheDetailsPfn (pfdbe : CacheDetails) (fcb offset : BitVec 64) : CacheDetails :=
  let offset := offset / filePageSize
  { pfdbe with
    fcb := fcb.setWidth 48
    offsetLower := offset.setWidth 32
    offsetUpper := (offset >>> 32).setWidth 16
    isFileCache := true
    modified := false }

def pfdbeFcb (pfdbe : CacheDetails) : BitVec 64 := 0xFFFF000000000000#64 ||| pfdbe.fcb.setWidth 64

def pfdbeOffset (pfdbe : CacheDetails) : BitVec 64 :=
  pfdbe.offsetLower.setWidth 64 ||| (pfdbe.offsetUpper.setWidth 64 <<< 16)

/-- The file and the offset that `MiFlushModifiedPage` gives to `IoPerformModifiedPageWrite`. -/
def miFlushModifiedPage (pfdbe : CacheDetails) : BitVec 64 × BitVec 64 :=
  (pfdbe.pfdbeFcb, pfdbe.pfdbeOffset * filePageSize)

/-- A page that is read from `offset` is found again and written back there. -/
structure Right (pfdbe : CacheDetails) (fcb offset : BitVec 64) : Prop where
  page : (pfdbe.mmSetCacheDetailsPfn fcb offset).pfdbeOffset = offset / filePageSize
  writtenBack : (pfdbe.mmSetCacheDetailsPfn fcb offset).miFlushModifiedPage.2
    = offset / filePageSize * filePageSize

/-- The upper field is put back behind the lower one's first half. -/
theorem toNat_pfdbeOffset_lt (pfdbe : CacheDetails) : pfdbe.pfdbeOffset.toNat < 2 ^ 32 := by
  rw [pfdbeOffset, BitVec.toNat_or]
  refine Nat.or_lt_two_pow ?_ ?_
  · have hw := pfdbe.offsetLower.isLt
    rw [BitVec.toNat_setWidth]
    omega
  · have hu := pfdbe.offsetUpper.isLt
    rw [BitVec.toNat_shiftLeft, BitVec.toNat_setWidth, Nat.shiftLeft_eq]
    omega

theorem toNat_div_filePageSize (off : BitVec 64) : (off / filePageSize).toNat = off.toNat / 0x1000 := by
  rw [BitVec.toNat_udiv]
  rfl

/-- A page number without an upper part is what the lower field holds. -/
theorem pfdbeOffset_of_lt {pfdbe : CacheDetails} {fcb off : BitVec 64} (hlt : off.toNat < 2 ^ 44) :
    (pfdbe.mmSetCacheDetailsPfn fcb off).pfdbeOffset = off / filePageSize := by
  have hp := toNat_div_filePageSize off
  have hu : (pfdbe.mmSetCacheDetailsPfn fcb off).offsetUpper = 0#16 := by
    apply BitVec.eq_of_toNat_eq
    rw [mmSetCacheDetailsPfn, BitVec.toNat_setWidth, BitVec.toNat_ushiftRight,
      Nat.shiftRight_eq_div_pow, hp, Nat.div_eq_of_lt (by omega)]
    rfl
  rw [pfdbeOffset, hu, show (0#16).setWidth 64 <<< 16 = 0#64 by decide, BitVec.or_zero]
  apply BitVec.eq_of_toNat_eq
  rw [mmSetCacheDetailsPfn, BitVec.toNat_setWidth, BitVec.toNat_setWidth, hp]
  omega

/-- **A page whose number fits the 48 bits of the two fields is written back where it was read from
just if its number fits the lower field.** -/
theorem cacheDetails_right_iff (pfdbe : CacheDetails) (fcb offset : BitVec 64)
    (hfts : offset.toNat / 0x1000 < 2 ^ 48) :
    pfdbe.Right fcb offset ↔ offset.toNat / 0x1000 < 2 ^ 32 := by
  have hp := toNat_div_filePageSize offset
  constructor
  · intro h
    have hlt := toNat_pfdbeOffset_lt (pfdbe.mmSetCacheDetailsPfn fcb offset)
    rwa [h.page, hp] at hlt
  · intro hlt
    have hsm : (pfdbe.mmSetCacheDetailsPfn fcb offset).pfdbeOffset = offset / filePageSize :=
      pfdbeOffset_of_lt (by omega)
    exact ⟨hsm, congrArg (· * filePageSize) hsm⟩

theorem cacheDetails_right_second_page :
    (⟨0, 0, 0, false, false⟩ : CacheDetails).Right 0xFFFF800000001000#64 0x1000#64 :=
  (cacheDetails_right_iff _ _ _ (by decide)).2 (by decide)

theorem page_past_lower_field_moves : ¬ ∀ (pfdbe : CacheDetails) (fcb offset : BitVec 64),
    offset.toNat / 0x1000 < 2 ^ 48 → (pfdbe.mmSetCacheDetailsPfn fcb offset).miFlushModifiedPage.2
        = offset / filePageSize * filePageSize := by
  intro ha
  exact absurd (ha ⟨0, 0, 0, false, false⟩ 0xFFFF800000001000#64 0x100000000000#64 (by decide))
    (by decide)

end CacheDetails

end Boron.Mm
