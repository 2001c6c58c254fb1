import Mathlib.Tactic.IntervalCases
import Boron.Lib.Bits
import Boron.Mm.Pte

/-! # The words of page table entries (`mm/amd64/pte.c`)

On AMD64 one 64-bit word holds five kinds of entries: a page that is mapped, one that was, the two
markers of pages that are not, and the address of a pool header. The functions below build these words
and take them apart, bit by bit as the port does. -/

namespace Boron.Mm

namespace Amd64

/-! ## Bits -/

def ptePresent : BitVec 64 := 1#64 <<< 0
def pteReadWrite : BitVec 64 := 1#64 <<< 1
def pteUserAccess : BitVec 64 := 1#64 <<< 2
def pteCDisable : BitVec 64 := 1#64 <<< 4
def pteAccessed : BitVec 64 := 1#64 <<< 5
def pteDirty : BitVec 64 := 1#64 <<< 6
def pteGlobal : BitVec 64 := 1#64 <<< 8
def pteIsFromPmm : BitVec 64 := 1#64 <<< 9
def pteNoExec : BitVec 64 := 1#64 <<< 63
def pteAddressMask : BitVec 64 := 0x000FFFFFFFFFF000
def dpteIsPoolHdr : BitVec 64 := 1#64 <<< 58
def dpteDecommitted : BitVec 64 := 1#64 <<< 3
def dpteCommitted : BitVec 64 := 1#64 <<< 8
def dpteWasPresent : BitVec 64 := 1#64 <<< 62

def protRead : BitVec 64 := 1#64 <<< 0
def protWrite : BitVec 64 := 1#64 <<< 1
def protExec : BitVec 64 := 1#64 <<< 2
def protUser : BitVec 64 := 1#64 <<< 3
def miscAccessed : BitVec 64 := 1#64 <<< 4
def miscDirty : BitVec 64 := 1#64 <<< 5
def miscDisableCache : BitVec 64 := 1#64 <<< 6
def miscIsFromPmm : BitVec 64 := 1#64 <<< 7
def miscGlobal : BitVec 64 := 1#64 <<< 8

def pageDecommitted : BitVec 64 := 1#64 <<< 0
def pageCommitted : BitVec 64 := 1#64 <<< 1

/-- `MM_KERNEL_SPACE_BASE`. -/
def kernelSpaceBase : BitVec 64 := 0xFFFF800000000000

/-- `if (Word & Bit)`. -/
def test (word bit : BitVec 64) : Bool := word &&& bit != 0

/-- `if (Condition) Word |= Bit`. -/
def setIf (condition : Bool) (bit word : BitVec 64) : BitVec 64 :=
  if condition then word ||| bit else word

/-! ## Kinds of entries -/

def mmIsPresentPte (pte : BitVec 64) : Bool := test pte ptePresent

def mmIsPoolHeaderPte (pte : BitVec 64) : Bool := !mmIsPresentPte pte && test pte dpteIsPoolHdr

def mmWasPresentPte (pte : BitVec 64) : Bool :=
  !mmIsPresentPte pte && !test pte dpteIsPoolHdr && test pte dpteWasPresent

def mmIsCommittedPte (pte : BitVec 64) : Bool :=
  !mmIsPresentPte pte && !test pte dpteIsPoolHdr && test pte dpteDecommitted

def mmIsDecommittedPte (pte : BitVec 64) : Bool :=
  !mmIsPresentPte pte && !test pte dpteIsPoolHdr && test pte dpteCommitted

def mmIsFromPmmPte (pte : BitVec 64) : Bool :=
  (mmIsPresentPte pte || mmWasPresentPte pte) && test pte pteIsFromPmm

/-! ## Building entries -/

def mmBuildZeroPte : BitVec 64 := 0

/-- `MmSetPfnPte`. A `MMPFN` has 32 bits, and it is shifted before it is made longer. -/
def mmSetPfnPte (pte : BitVec 64) (newPfn : BitVec 32) : BitVec 64 :=
  (pte &&& ~~~pteAddressMask) ||| (newPfn <<< 12).setWidth 64

def mmSetPageBitsPte (pte pageBits : BitVec 64) : BitVec 64 :=
  setIf (test pageBits miscIsFromPmm) pteIsFromPmm <|
  setIf (test pageBits miscGlobal) pteGlobal <|
  setIf (test pageBits miscDirty) pteDirty <|
  setIf (test pageBits miscAccessed) pteAccessed <|
  setIf (test pageBits miscDisableCache) pteCDisable <|
  setIf (test (~~~pageBits) protExec) pteNoExec <|
  setIf (test pageBits protUser) pteUserAccess <|
  setIf (test pageBits protWrite) pteReadWrite <|
  pte &&& ~~~(pteReadWrite ||| pteUserAccess ||| pteNoExec ||| pteCDisable ||| pteAccessed |||
    pteDirty ||| pteGlobal ||| pteIsFromPmm)

def mmBuildPte (pfn : BitVec 32) (pageBits : BitVec 64) : BitVec 64 :=
  mmSetPageBitsPte (mmSetPfnPte mmBuildZeroPte pfn) pageBits ||| ptePresent

def mmBuildWasPresentPte (oldPte : BitVec 64) : BitVec 64 :=
  (oldPte &&& 0x8000FFFFFFFFFFFF) ||| dpteWasPresent

def mmBuildAbsentPte (pageBits : BitVec 64) : BitVec 64 :=
  setIf (test pageBits pageCommitted) dpteCommitted <|
  setIf (test pageBits pageDecommitted) dpteDecommitted mmBuildZeroPte

def mmBuildPoolHeaderPte (address : BitVec 64) : BitVec 64 :=
  (address - kernelSpaceBase) ||| dpteIsPoolHdr

/-! ## Reading entries -/

def mmGetPoolHeaderAddressPte (pte : BitVec 64) : BitVec 64 :=
  if mmIsPoolHeaderPte pte then (pte &&& ~~~dpteIsPoolHdr) + kernelSpaceBase else 0

def mmGetPfnPte (pte : BitVec 64) : BitVec 32 := ((pte &&& pteAddressMask) >>> 12).setWidth 32

def mmGetPageBitsPte (pte : BitVec 64) : BitVec 64 :=
  setIf (test pte pteIsFromPmm) miscIsFromPmm <|
  setIf (test pte pteGlobal) miscGlobal <|
  setIf (test pte pteCDisable) miscDisableCache <|
  setIf (test pte pteDirty) miscDirty <|
  setIf (test pte pteAccessed) miscAccessed <|
  setIf (test pte pteUserAccess) protUser <|
  setIf (test pte pteReadWrite) protWrite <|
  if test pte pteNoExec then (protRead ||| protExec) &&& ~~~protExec else protRead ||| protExec

/-! ## Bit by bit -/

section

variable (w : BitVec 64) (k i : Nat) (c : Bool)

theorem test_bit (hk : k < 64) : test w (1#64 <<< k) = w.getLsbD k := by
  rw [test, Bool.eq_iff_iff, bne_iff_ne]
  exact and_bit_ne_zero hk

theorem getLsbD_setIf (hk : k < 64) :
    (setIf c (1#64 <<< k) w).getLsbD i = (w.getLsbD i || (c && decide (i = k))) := by
  rw [setIf]
  cases c with
  | false => simp
  | true => rw [if_pos rfl, BitVec.getLsbD_or, getLsbD_bit hk, Bool.true_and]

theorem getLsbD_setPfn (pfn : BitVec 32) : (mmSetPfnPte mmBuildZeroPte pfn).getLsbD i =
      (decide (12 ≤ i ∧ i < 32) && pfn.getLsbD (i - 12)) := by
  simp only [mmSetPfnPte, mmBuildZeroPte, BitVec.getLsbD_or, BitVec.getLsbD_and, BitVec.getLsbD_setWidth,
    BitVec.getLsbD_shiftLeft]
  grind

theorem getLsbD_build (pfn : BitVec 32) (bits : BitVec 64) : (mmBuildPte pfn bits).getLsbD i =
      ((decide (12 ≤ i ∧ i < 32) && pfn.getLsbD (i - 12)) ||
        (bits.getLsbD 1 && decide (i = 1)) || (bits.getLsbD 3 && decide (i = 2)) ||
        (!bits.getLsbD 2 && decide (i = 63)) || (bits.getLsbD 6 && decide (i = 4)) ||
        (bits.getLsbD 4 && decide (i = 5)) || (bits.getLsbD 5 && decide (i = 6)) ||
        (bits.getLsbD 8 && decide (i = 8)) || (bits.getLsbD 7 && decide (i = 9)) ||
        decide (i = 0)) := by
  simp (disch := decide) only [mmBuildPte, mmSetPageBitsPte, getLsbD_setPfn, ptePresent, pteReadWrite,
    pteUserAccess, pteNoExec, pteCDisable, pteAccessed, pteDirty, pteGlobal, pteIsFromPmm, protWrite,
    protUser, protExec, miscDisableCache, miscAccessed, miscDirty, miscGlobal, miscIsFromPmm,
    getLsbD_setIf, getLsbD_bit, test_bit, BitVec.getLsbD_or, BitVec.getLsbD_and, BitVec.getLsbD_not]
  by_cases hi : 12 ≤ i ∧ i < 32
  · have hms : ∀ k, k < 12 ∨ 32 ≤ k → i ≠ k := by omega
    simp [hi, hms, show i < 64 by omega]
  · simp [hi]

/-- A frame number of 32 bits loses its upper twelve in the shift. -/
theorem getLsbD_getPfn_build (pfn : BitVec 32) (bits : BitVec 64) :
    (mmGetPfnPte (mmBuildPte pfn bits)).getLsbD i = (decide (i < 20) && pfn.getLsbD i) := by
  have hms : pteAddressMask.getLsbD (12 + i) = decide (i < 40) := by
    rw [show pteAddressMask = (BitVec.ofNat 64 (2 ^ 40 - 1)) <<< 12 by decide,
      BitVec.getLsbD_shiftLeft, getLsbD_lowBits (by decide)]
    grind
  rw [mmGetPfnPte, BitVec.getLsbD_setWidth, BitVec.getLsbD_ushiftRight, BitVec.getLsbD_and,
    getLsbD_build, hms]
  have hne : ∀ k, k < 12 → 12 + i ≠ k := by omega
  by_cases hi : i < 20
  · simp [hi, hne, show i < 32 by omega, show i < 40 by omega, show 12 + i < 32 by omega,
      show 12 + i ≠ 63 by omega]
  · simp [hi, hne, show ¬ 12 + i < 32 by omega]
    omega

/-- The frame number comes back if the shift lost nothing. -/
theorem getPfn_build (pfn : BitVec 32) (bits : BitVec 64) :
    mmGetPfnPte (mmBuildPte pfn bits) = pfn ↔ pfn.toNat < 2 ^ 20 := by
  constructor
  · intro h
    rw [← h]
    refine Nat.lt_pow_two_of_testBit _ fun i hi => ?_
    rw [BitVec.testBit_toNat, getLsbD_getPfn_build, decide_eq_false (not_lt.2 hi), Bool.false_and]
  · intro h
    refine BitVec.eq_of_getLsbD_eq fun i _ => ?_
    rw [getLsbD_getPfn_build]
    by_cases hi : i < 20
    · rw [decide_eq_true hi, Bool.true_and]
    · have hlt := h.trans_le (Nat.pow_le_pow_right (by decide) (not_lt.1 hi))
      rw [← BitVec.testBit_toNat, Nat.testBit_lt_two_pow hlt, Bool.and_false]

/-- The page bits that come from `MM_AMD64_PTE_NOEXEC`. -/
theorem getLsbD_readExec :
    (if c then (protRead ||| protExec) &&& ~~~protExec else protRead ||| protExec).getLsbD i =
      (decide (i = 0) || (!c && decide (i = 2))) := by
  cases c with
  | true =>
    rw [if_pos rfl, show (protRead ||| protExec) &&& ~~~protExec = 1#64 <<< 0 by decide,
      getLsbD_bit (by decide)]
    simp
  | false =>
    rw [if_neg Bool.false_ne_true, protRead, protExec, BitVec.getLsbD_or,
      getLsbD_bit (by decide), getLsbD_bit (by decide)]
    simp

theorem getPageBits_build (pfn : BitVec 32) (bits : BitVec 64) :
    mmGetPageBitsPte (mmBuildPte pfn bits) = (bits &&& 0x1FF) ||| protRead := by
  refine BitVec.eq_of_getLsbD_eq fun i _ => ?_
  have hw : (0x1FF : BitVec 64).getLsbD i = decide (i < 9) := by
    rw [show (0x1FF : BitVec 64) = BitVec.ofNat 64 (2 ^ 9 - 1) by decide, getLsbD_lowBits (by decide)]
  rw [BitVec.getLsbD_or, BitVec.getLsbD_and, hw, protRead, getLsbD_bit (by decide)]
  simp (disch := decide) only [mmGetPageBitsPte, pteReadWrite, pteUserAccess, pteNoExec, pteCDisable,
    pteAccessed, pteDirty, pteGlobal, pteIsFromPmm, protWrite, protUser, miscDisableCache,
    miscAccessed, miscDirty, miscGlobal, miscIsFromPmm, getLsbD_setIf, test_bit, getLsbD_build,
    getLsbD_readExec]
  -- the tests that the entry makes do not depend on the bit that is asked for
  simp only [Nat.reduceLeDiff, Nat.reduceLT, and_false, decide_false, Nat.reduceSub,
    BitVec.getLsbD_of_ge, Bool.and_self, Nat.one_lt_ofNat, OfNat.ofNat_ne_one, Bool.and_false,
    Bool.or_self, Nat.reduceEqDiff, decide_true, Bool.and_true, Bool.false_or, Bool.or_false,
    OfNat.ofNat_ne_zero, Bool.not_not, Nat.not_ofNat_le_one, and_true, Nat.one_le_ofNat,
    Nat.sub_eq_zero_of_le, Bool.false_and, OfNat.one_ne_ofNat, one_ne_zero,
    Nat.succ_ne_self]
  by_cases hi : i < 9
  · interval_cases i <;> simp
  · have hne : ∀ k, k < 9 → i ≠ k := by omega
    simp [hi, hne]

end

/-! ## Kinds of entries, once more -/

inductive PteKind
  | present
  | wasPresent
  | committed
  | decommitted
  | poolHeader
  deriving DecidableEq, Repr

/-- The answer to the question whether an entry is of the kind. -/
def PteKind.answer : PteKind → BitVec 64 → Bool
  | .present => mmIsPresentPte
  | .wasPresent => mmWasPresentPte
  | .committed => mmIsCommittedPte
  | .decommitted => mmIsDecommittedPte
  | .poolHeader => mmIsPoolHeaderPte

/-- The ways in which entries are built. -/
inductive Encoding
  | page (pfn : BitVec 32) (pageBits : BitVec 64)
  | wasPresent (oldPte : BitVec 64) (present : mmIsPresentPte oldPte = true)
  | committed
  | decommitted
  | poolHeader (address : BitVec 64) (aligned : address &&& 7 = 0)
      (kernel : kernelSpaceBase ≤ address)
  | zero

namespace Encoding

def word : Encoding → BitVec 64
  | .page pfn pageBits => mmBuildPte pfn pageBits
  | .wasPresent oldPte _ => mmBuildWasPresentPte oldPte
  | .committed => mmBuildAbsentPte pageCommitted
  | .decommitted => mmBuildAbsentPte pageDecommitted
  | .poolHeader address _ _ => mmBuildPoolHeaderPte address
  | .zero => mmBuildZeroPte

def kind : Encoding → Option PteKind
  | .page _ _ => some .present
  | .wasPresent _ _ => some .wasPresent
  | .committed => some .committed
  | .decommitted => some .decommitted
  | .poolHeader _ _ _ => some .poolHeader
  | .zero => none

/-- Just the question for the entry's kind is answered with yes. -/
def Told (x : Encoding) : Prop := ∀ k : PteKind, k.answer x.word = decide (x.kind = some k)

/-- What was put into the entry is read from it. -/
def ReadsBack : Encoding → Prop
  | .page pfn pageBits =>
    mmGetPfnPte (mmBuildPte pfn pageBits) = pfn ∧
      mmGetPageBitsPte (mmBuildPte pfn pageBits) = (pageBits &&& 0x1FF) ||| protRead
  | .wasPresent oldPte _ =>
    mmGetPfnPte (mmBuildWasPresentPte oldPte) = mmGetPfnPte oldPte ∧
      mmIsFromPmmPte (mmBuildWasPresentPte oldPte) = mmIsFromPmmPte oldPte
  | .poolHeader address _ _ =>
    mmGetPoolHeaderAddressPte (mmBuildPoolHeaderPte address) = address
  | _ => True

/-- Entries that the port gets right: pages of the first 4 GiB, pool headers and the zero entry. -/
def InReach : Encoding → Prop
  | .page pfn _ => pfn.toNat < 2 ^ 20
  | .poolHeader _ _ _ => True
  | .zero => True
  | _ => False

variable {address : BitVec 64}

/-- A pool header's address fits below the bits of the entry, and leaves the present bit alone. -/
theorem offset_bits (ali : address &&& 7 = 0) (ker : kernelSpaceBase ≤ address) :
    (address - kernelSpaceBase).getLsbD 0 = false ∧
      ∀ i, 47 ≤ i → (address - kernelSpaceBase).getLsbD i = false := by
  have hbs : kernelSpaceBase.toNat = 2 ^ 64 - 2 ^ 47 := by decide
  have hb : (address - kernelSpaceBase).toNat = address.toNat - (2 ^ 64 - 2 ^ 47) := by
    rw [BitVec.toNat_sub_of_le ker, hbs]
  have hmd : address.toNat % 8 = 0 := by
    have := congrArg BitVec.toNat ali
    rwa [BitVec.toNat_and, show (7 : BitVec 64).toNat = 2 ^ 3 - 1 by decide,
      Nat.and_two_pow_sub_one_eq_mod] at this
  refine ⟨?_, fun i hi => ?_⟩
  · rw [← BitVec.testBit_toNat, hb, Nat.testBit_zero, decide_eq_false_iff_not]
    omega
  · rw [← BitVec.testBit_toNat, hb]
    refine Nat.testBit_lt_two_pow (lt_of_lt_of_le ?_ (Nat.pow_le_pow_right (by decide) hi))
    have := address.isLt
    omega

theorem poolHeader_told (ali : address &&& 7 = 0) (ker : kernelSpaceBase ≤ address) :
    mmIsPresentPte (mmBuildPoolHeaderPte address) = false ∧
      test (mmBuildPoolHeaderPte address) dpteIsPoolHdr = true := by
  obtain ⟨hw, -⟩ := offset_bits ali ker
  simp (disch := decide) only [mmIsPresentPte, mmBuildPoolHeaderPte, ptePresent, dpteIsPoolHdr, test_bit,
    BitVec.getLsbD_or, getLsbD_bit, hw]
  simp

theorem poolHeader_readsBack (ali : address &&& 7 = 0) (ker : kernelSpaceBase ≤ address) :
    mmGetPoolHeaderAddressPte (mmBuildPoolHeaderPte address) = address := by
  obtain ⟨ha, hh⟩ := poolHeader_told ali ker
  have hof : mmBuildPoolHeaderPte address &&& ~~~dpteIsPoolHdr = address - kernelSpaceBase := by
    rw [mmBuildPoolHeaderPte, dpteIsPoolHdr]
    exact or_bit_and_not_bit (by decide) ((offset_bits ali ker).2 58 (by decide))
  have hkn : mmIsPoolHeaderPte (mmBuildPoolHeaderPte address) = true := by
    rw [mmIsPoolHeaderPte, ha, hh]
    rfl
  rw [mmGetPoolHeaderAddressPte, if_pos hkn, hof, BitVec.sub_add_cancel]

/-- What is built from an entry for a page that is present is still present. -/
theorem isPresent_wasPresent {op : BitVec 64} (h : mmIsPresentPte op = true) :
    mmIsPresentPte (mmBuildWasPresentPte op) = true := by
  rw [mmIsPresentPte, ptePresent, test_bit _ _ (by decide)] at h ⊢
  simp only [mmBuildWasPresentPte, BitVec.getLsbD_or, BitVec.getLsbD_and, h]
  decide

theorem isPresent_build (pfn : BitVec 32) (pb : BitVec 64) :
    mmIsPresentPte (mmBuildPte pfn pb) = true := by
  rw [mmIsPresentPte, ptePresent, test_bit _ _ (by decide), getLsbD_build]
  simp

/-- **Exactly the entries in reach are told and read back.** -/
theorem codec_iff_inReach (x : Encoding) : x.Told ∧ x.ReadsBack ↔ x.InReach := by
  cases x with
  | page pfn pageBits =>
    have htl : (page pfn pageBits).Told := by
      intro k
      have hp := isPresent_build pfn pageBits
      cases k with
      | present => exact hp
      | _ => simp [PteKind.answer, word, kind, mmWasPresentPte, mmIsCommittedPte,
          mmIsDecommittedPte, mmIsPoolHeaderPte, hp]
    simp only [ReadsBack, InReach, htl, true_and, getPageBits_build, and_true, getPfn_build]
  | wasPresent oldPte present =>
    refine iff_of_false (fun h => ?_) id
    have := h.1 .present
    rw [PteKind.answer, word, isPresent_wasPresent present] at this
    cases this
  | committed =>
    refine iff_of_false (fun h => ?_) id
    exact absurd (h.1 .committed) (by decide)
  | decommitted =>
    refine iff_of_false (fun h => ?_) id
    exact absurd (h.1 .decommitted) (by decide)
  | poolHeader address aligned kernel =>
    obtain ⟨ha, hh⟩ := poolHeader_told aligned kernel
    refine iff_of_true ⟨fun k => ?_, poolHeader_readsBack aligned kernel⟩ trivial
    cases k <;> simp [PteKind.answer, word, kind, mmWasPresentPte, mmIsCommittedPte,
      mmIsDecommittedPte, mmIsPoolHeaderPte, ha, hh]
  | zero =>
    refine iff_of_true ⟨fun k => ?_, trivial⟩ trivial
    cases k <;> decide

/-- The first frame beyond 4 GiB is taken for frame 0. -/
theorem frame_lost : mmGetPfnPte (mmBuildPte 0x100000 (protRead ||| protWrite ||| miscIsFromPmm)) = 0 ∧
      ¬ ((page 0x100000 (protRead ||| protWrite ||| miscIsFromPmm)).Told ∧
        (page 0x100000 (protRead ||| protWrite ||| miscIsFromPmm)).ReadsBack) := by
  refine ⟨by decide, fun h => ?_⟩
  exact absurd h.2.1 (by decide)

end Encoding

end Amd64

end Boron.Mm
