import Mathlib.Data.List.Count
import Boron.Mm.PteCodec

/-! # Mapping a memory descriptor list (`mm/mdl.c`)

An MDL lists the frames of a buffer, each with a reference from when it was captured. It can be mapped
into the kernel's half of the address space, which takes one more reference to each frame; what is
mapped is told twice, by a flag and by a saved address. The entries of the page tables are those of
AMD64. A frame number has 32 bits, and so has the product that `MmMapPinnedPagesMdl` makes of it. -/

namespace Boron.Mm.Amd64

open Function List

/-! ## Page tables and references -/

def mmPhysPageToPFN (physAddr : BitVec 64) : BitVec 32 := (physAddr / 0x1000#64).setWidth 32

/-- The entries of the kernel's page tables by the address of the page (an address without a table
has a zero entry), and for each frame the references taken since the buffer was captured less those
given back. -/
structure KernelSpace where
  pte : Nat → BitVec 64
  net : BitVec 32 → Int

namespace KernelSpace

def setPte (m : KernelSpace) (address : Nat) (word : BitVec 64) : KernelSpace :=
  { m with pte := update m.pte address word }

def mmPageAddReference (m : KernelSpace) (pfn : BitVec 32) : KernelSpace :=
  { m with net := update m.net pfn (m.net pfn + 1) }

def mmFreePhysicalPage (m : KernelSpace) (pfn : BitVec 32) : KernelSpace :=
  { m with net := update m.net pfn (m.net pfn - 1) }

/-- `MiMapPhysicalPage`; `room` tells whether there is a table for the entry or memory for one. -/
def miMapPhysicalPage (m : KernelSpace) (room : Bool) (physicalPage : BitVec 64) (address : Nat)
    (permissions : BitVec 64) : Option KernelSpace :=
  if room then some (m.setPte address (mmBuildPte (mmPhysPageToPFN physicalPage) permissions))
  else none

/-- The body of the first loop of `MiUnmapPages`. -/
def unsetPresent (m : KernelSpace) (address : Nat) : KernelSpace :=
  if mmIsPresentPte (m.pte address) then m.setPte address (mmBuildWasPresentPte (m.pte address))
  else m.setPte address mmBuildZeroPte

/-- The body of its second loop. -/
def freeFrame (m : KernelSpace) (address : Nat) : KernelSpace :=
  if mmIsFromPmmPte (m.pte address) then
    (m.mmFreePhysicalPage (mmGetPfnPte (m.pte address))).setPte address mmBuildZeroPte
  else m

def miUnmapPages (m : KernelSpace) (address lengthPages : Nat) : KernelSpace :=
  let m := (List.range lengthPages).foldl (fun m i => m.unsetPresent (address + i * pageSize)) m
  (List.range lengthPages).foldl (fun m i => m.freeFrame (address + i * pageSize)) m

end KernelSpace

/-! ## Descriptor lists -/

/-- An `MDL`. `NumberPages` is the length of its list of pages. -/
structure Mdl where
  byteOffset : Nat
  byteCount : Nat
  sourceStartVA : Nat
  mappedStartVA : Nat
  captured : Bool
  mapped : Bool
  write : Bool
  fromPool : Bool
  pages : List (BitVec 32)

/-- An MDL, with the memory of the kernel; `freed` once it is given back to the pool. -/
structure MdlState where
  mdl : Mdl
  space : KernelSpace
  freed : Bool

inductive MapStatus
  | success
  | noRemap
  | insufficientMemory
  deriving DecidableEq, Repr

namespace Mdl

/-- The permissions that `MmMapPinnedPagesMdl` maps with. -/
def permissions (mdl : Mdl) : BitVec 64 :=
  if mdl.write then miscIsFromPmm ||| protRead ||| protWrite else miscIsFromPmm ||| protRead

end Mdl

namespace KernelSpace

/-- The loop of `MmMapPinnedPagesMdl`, with its way out. The product of a `MMPFN` and the `int`
`PAGE_SIZE` has 32 bits. -/
def mapPages (permissions : BitVec 64) (mapAddress : Nat) (room : Nat → Bool) :
    List (BitVec 32) → (index : Nat) → KernelSpace → Bool × KernelSpace
  | [], _, m => (true, m)
  | pfn :: pages, index, m =>
    let m := m.mmPageAddReference pfn
    match m.miMapPhysicalPage (room index) ((pfn * 0x1000#32).setWidth 64)
        (mapAddress + index * pageSize) permissions with
    | some m => mapPages permissions mapAddress room pages (index + 1) m
    | none => (false, (m.miUnmapPages mapAddress index).mmFreePhysicalPage pfn)

end KernelSpace

namespace MdlState

def mmUnmapPagesMdl (s : MdlState) : MdlState :=
  if s.mdl.mapped then
    { s with
      mdl := { s.mdl with mapped := false }
      space := s.space.miUnmapPages s.mdl.mappedStartVA s.mdl.pages.length }
  else s

def mmUnpinPagesMdl (s : MdlState) : MdlState :=
  let s := s.mmUnmapPagesMdl
  if s.mdl.captured then
    { s with
      mdl := { s.mdl with captured := false }
      space := s.mdl.pages.foldl KernelSpace.mmFreePhysicalPage s.space }
  else s

def mmFreeMdl (s : MdlState) : MdlState :=
  let s := s.mmUnmapPagesMdl.mmUnpinPagesMdl
  if s.mdl.fromPool then { s with freed := true } else s

/-- `MmMapPinnedPagesMdl`, with what it writes through `OutAddress`. `addressV` is what
`MmAllocatePoolBig` returns. -/
def mmMapPinnedPagesMdl (s : MdlState) (addressV : Option Nat) (room : Nat → Bool) :
    MapStatus × Option Nat × MdlState :=
  if s.mdl.mappedStartVA ≠ 0 then (.noRemap, some (s.mdl.mappedStartVA + s.mdl.byteOffset), s)
  else
    match addressV with
    | none => (.insufficientMemory, none, s)
    | some mapAddress =>
      match s.space.mapPages s.mdl.permissions mapAddress room s.mdl.pages 0 with
      | (false, space) => (.insufficientMemory, none, { s with space })
      | (true, space) =>
        (.success, some (mapAddress + s.mdl.byteOffset),
          { s with space, mdl := { s.mdl with mappedStartVA := mapAddress, mapped := true } })

end MdlState

/-! ## What an entry maps -/

section

variable {w bits : BitVec 64} {pfn : BitVec 32}

/-- The physical address that an entry leads to. -/
def physicalAddress (w : BitVec 64) : Nat := (w &&& pteAddressMask).toNat

/-- The entry maps the frame, and owns a reference to it. -/
structure MapsFrame (w : BitVec 64) (pfn : BitVec 32) : Prop where
  present : mmIsPresentPte w = true
  fromPmm : test w pteIsFromPmm = true
  address : physicalAddress w = pfn.toNat * pageSize

theorem getLsbD_addressMask (i : Nat) : pteAddressMask.getLsbD i = decide (12 ≤ i ∧ i < 52) := by
  rw [show pteAddressMask = (BitVec.ofNat 64 (2 ^ 40 - 1)) <<< 12 by decide,
    BitVec.getLsbD_shiftLeft, getLsbD_lowBits (by decide)]
  grind

theorem MapsFrame.getPfn (h : MapsFrame w pfn) : mmGetPfnPte w = pfn := by
  have ha := h.address
  rw [physicalAddress, pageSize] at ha
  refine BitVec.eq_of_toNat_eq ?_
  rw [mmGetPfnPte, BitVec.toNat_setWidth, BitVec.toNat_ushiftRight, ha, Nat.shiftRight_eq_div_pow]
  have := pfn.isLt
  omega

/-- What was mapped keeps its frame number. -/
theorem getPfn_wasPresent (w : BitVec 64) : mmGetPfnPte (mmBuildWasPresentPte w) = mmGetPfnPte w := by
  refine BitVec.eq_of_getLsbD_eq fun i hi => ?_
  simp only [mmGetPfnPte, mmBuildWasPresentPte, dpteWasPresent, BitVec.getLsbD_setWidth,
    BitVec.getLsbD_ushiftRight, BitVec.getLsbD_and, BitVec.getLsbD_or,
    getLsbD_bit (show 62 < 64 by decide)]
  have hp : (0x8000FFFFFFFFFFFF : BitVec 64).getLsbD (12 + i) = true := by
    interval_cases i <;> rfl
  rw [hp, Bool.and_true, decide_eq_false (show 12 + i ≠ 62 by omega), Bool.or_false]

theorem isFromPmm_wasPresent (h : mmIsPresentPte w = true) :
    mmIsFromPmmPte (mmBuildWasPresentPte w) = test w pteIsFromPmm := by
  have hb : test (mmBuildWasPresentPte w) pteIsFromPmm = test w pteIsFromPmm := by
    rw [pteIsFromPmm, test_bit _ _ (by decide), test_bit _ _ (by decide), mmBuildWasPresentPte,
      dpteWasPresent, BitVec.getLsbD_or, BitVec.getLsbD_and, getLsbD_bit (by decide)]
    simp
  rw [mmIsFromPmmPte, Encoding.isPresent_wasPresent h, Bool.true_or, Bool.true_and, hb]

theorem mmPhysPageToPFN_mul (h : pfn.toNat < 2 ^ 20) :
    mmPhysPageToPFN ((pfn * 0x1000#32).setWidth 64) = pfn := by
  refine BitVec.eq_of_toNat_eq ?_
  rw [mmPhysPageToPFN, BitVec.toNat_setWidth, BitVec.toNat_udiv, BitVec.toNat_setWidth,
    BitVec.toNat_mul, show (0x1000#32).toNat = 4096 from rfl, show (0x1000#64).toNat = 4096 from rfl]
  omega

theorem mapsFrame_build (h : pfn.toNat < 2 ^ 20) (hb : test bits miscIsFromPmm = true) :
    MapsFrame (mmBuildPte pfn bits) pfn where
  present := Encoding.isPresent_build pfn bits
  fromPmm := by
    rw [miscIsFromPmm, test_bit _ _ (by decide)] at hb
    rw [pteIsFromPmm, test_bit _ _ (by decide), getLsbD_build, hb]
    simp
  address := by
    have hbl : mmBuildPte pfn bits &&& pteAddressMask = pfn.setWidth 64 <<< 12 := by
      refine BitVec.eq_of_getLsbD_eq fun i _ => ?_
      rw [BitVec.getLsbD_and, getLsbD_build, getLsbD_addressMask, BitVec.getLsbD_shiftLeft,
        BitVec.getLsbD_setWidth]
      by_cases hi : 12 ≤ i ∧ i < 32
      · have hms : ∀ k, k < 12 ∨ 32 ≤ k → i ≠ k := by omega
        simp [hi, hms, show i < 64 by omega, show i < 52 by omega, show i - 12 < 64 by omega]
      · by_cases h12 : 12 ≤ i
        · have hls : pfn.getLsbD (i - 12) = false := by
            rw [← BitVec.testBit_toNat]
            exact Nat.testBit_lt_two_pow (h.trans_le (Nat.pow_le_pow_right (by decide) (by omega)))
          have hne : ∀ k, k < 12 → i ≠ k := by omega
          simp [hls, hne, show ¬ i < 32 by omega]
          omega
        · simp [h12]
    rw [physicalAddress, hbl, BitVec.toNat_shiftLeft, BitVec.toNat_setWidth, Nat.shiftLeft_eq, pageSize]
    omega

end

/-! ## The loops -/

namespace KernelSpace

variable {m : KernelSpace} {address : Nat} {pages : List (BitVec 32)}

/-- The pages from the address on are mapped to the frames of the list. -/
def Shows (m : KernelSpace) (address : Nat) (pages : List (BitVec 32)) : Prop :=
  ∀ i pfn, pages[i]? = some pfn → MapsFrame (m.pte (address + i * pageSize)) pfn

variable {i j : Nat}

theorem page_inj : address + i * pageSize = address + j * pageSize ↔ i = j := by
  rw [Nat.add_left_cancel_iff, Nat.mul_left_inj (by decide)]

@[simp] theorem net_setPte (w : BitVec 64) : (m.setPte address w).net = m.net := rfl

@[simp] theorem pte_setPte_self (w : BitVec 64) : (m.setPte address w).pte address = w :=
  update_self ..

theorem pte_setPte_page (w : BitVec 64) (h : i ≠ j) :
    (m.setPte (address + j * pageSize) w).pte (address + i * pageSize) =
      m.pte (address + i * pageSize) := by
  have hne : address + i * pageSize ≠ address + j * pageSize := mt page_inj.1 h
  simp only [setPte, update_of_ne hne]

@[simp] theorem net_mmPageAddReference (pfn q : BitVec 32) :
    (m.mmPageAddReference pfn).net q = m.net q + [pfn].count q := by
  change update m.net pfn (m.net pfn + 1) q = _
  rw [count_singleton]
  by_cases hq : q = pfn
  · rw [hq, update_self, if_pos (beq_self_eq_true pfn), Nat.cast_one]
  · rw [update_of_ne hq, if_neg (by simpa using Ne.symm hq), Nat.cast_zero, Int.add_zero]

@[simp] theorem net_mmFreePhysicalPage (pfn q : BitVec 32) :
    (m.mmFreePhysicalPage pfn).net q = m.net q - [pfn].count q := by
  change update m.net pfn (m.net pfn - 1) q = _
  rw [count_singleton]
  by_cases hq : q = pfn
  · rw [hq, update_self, if_pos (beq_self_eq_true pfn), Nat.cast_one]
  · rw [update_of_ne hq, if_neg (by simpa using Ne.symm hq), Nat.cast_zero, Int.sub_zero]

theorem net_foldl_mmFreePhysicalPage (pages : List (BitVec 32)) (m : KernelSpace) (q : BitVec 32) :
    (pages.foldl mmFreePhysicalPage m).net q = m.net q - pages.count q := by
  induction pages generalizing m with
  | nil => simp
  | cons pfn pages ih =>
    have hc : (pfn :: pages).count q = [pfn].count q + pages.count q := by
      rw [← count_append, singleton_append]
    rw [foldl_cons, ih, net_mmFreePhysicalPage, hc]
    omega

/-- One more page is mapped behind the others. -/
theorem Shows.snoc {w : BitVec 64} {pfn : BitVec 32} (h : m.Shows address pages)
    (hw : MapsFrame w pfn) :
    (m.setPte (address + pages.length * pageSize) w).Shows address (pages ++ [pfn]) := by
  intro i pfn' hgt
  by_cases hi : i = pages.length
  · rw [hi, List.getElem?_concat_length] at hgt
    rw [hi, pte_setPte_self, ← Option.some.inj hgt]
    exact hw
  · have hlt : i < pages.length := by
      have := (List.getElem?_eq_some_iff.1 hgt).1
      rw [length_append, length_singleton] at this
      omega
    rw [List.getElem?_append_left hlt] at hgt
    rw [pte_setPte_page w hi]
    exact h i pfn' hgt

/-- What `unsetPresent` makes of an entry. -/
def unset (w : BitVec 64) : BitVec 64 :=
  if mmIsPresentPte w then mmBuildWasPresentPte w else mmBuildZeroPte

theorem unsetPresent_eq (m : KernelSpace) (address : Nat) :
    m.unsetPresent address = m.setPte address (unset (m.pte address)) := by
  rw [unsetPresent, unset]
  split <;> rfl

theorem foldl_unsetPresent (m : KernelSpace) (address n : Nat) :
    let m' := (List.range n).foldl (fun m i => m.unsetPresent (address + i * pageSize)) m
    m'.net = m.net ∧ ∀ i, m'.pte (address + i * pageSize) =
      if i < n then unset (m.pte (address + i * pageSize)) else m.pte (address + i * pageSize) := by
  induction n with
  | zero => exact ⟨rfl, fun i => (if_neg (Nat.not_lt_zero i)).symm⟩
  | succ n ih =>
    obtain ⟨hnt, hp⟩ := ih
    simp only [range_succ, foldl_append, foldl_cons, foldl_nil, unsetPresent_eq] at hnt hp ⊢
    refine ⟨hnt, fun i => ?_⟩
    by_cases hi : i = n
    · rw [hi, pte_setPte_self, hp n, if_neg (Nat.lt_irrefl n), if_pos (Nat.lt_succ_self n)]
    · rw [pte_setPte_page _ hi, hp i]
      exact if_congr (by omega) rfl rfl

/-- Entries that own a reference to the frames of a list give them back. -/
theorem foldl_freeFrame {n : Nat} (hn : n ≤ pages.length) (hw : ∀ i pfn, pages[i]? = some pfn →
      mmIsFromPmmPte (m.pte (address + i * pageSize)) = true ∧
        mmGetPfnPte (m.pte (address + i * pageSize)) = pfn) :
    let m' := (List.range n).foldl (fun m i => m.freeFrame (address + i * pageSize)) m
    (∀ q, m'.net q = m.net q - (pages.take n).count q) ∧
      ∀ i, n ≤ i → m'.pte (address + i * pageSize) = m.pte (address + i * pageSize) := by
  induction n with
  | zero => exact ⟨fun q => by simp, fun i _ => rfl⟩
  | succ n ih =>
    obtain ⟨hnt, hp⟩ := ih (Nat.le_of_succ_le hn)
    have hgt : pages[n]? = some pages[n] := List.getElem?_eq_getElem hn
    obtain ⟨hfr, hpf⟩ := hw n _ hgt
    rw [← hp n le_rfl] at hfr hpf
    simp only [range_succ, foldl_append, foldl_cons, foldl_nil] at hnt hp ⊢
    rw [freeFrame, if_pos hfr, hpf]
    refine ⟨fun q => ?_, fun i hi => ?_⟩
    · rw [net_setPte, net_mmFreePhysicalPage, hnt, take_add_one, hgt, Option.toList_some, count_append]
      omega
    · rw [pte_setPte_page _ (by omega)]
      exact hp i (by omega)

/-- **Unmapping what is mapped to a list of frames** drops a reference to each. -/
theorem miUnmapPages_spec (h : m.Shows address pages) (q : BitVec 32) :
    (m.miUnmapPages address pages.length).net q = m.net q - pages.count q := by
  obtain ⟨hnt, hpt⟩ := foldl_unsetPresent m address pages.length
  rw [miUnmapPages]
  generalize (List.range pages.length).foldl _ m = m' at hnt hpt
  have hw : ∀ i pfn, pages[i]? = some pfn → mmIsFromPmmPte (m'.pte (address + i * pageSize)) = true ∧
        mmGetPfnPte (m'.pte (address + i * pageSize)) = pfn := by
    intro i pfn hgt
    have hlt : i < pages.length := (List.getElem?_eq_some_iff.1 hgt).1
    obtain ⟨hp, hfr, -⟩ := h i pfn hgt
    rw [hpt i, if_pos hlt, unset, if_pos hp, isFromPmm_wasPresent hp, getPfn_wasPresent]
    exact ⟨hfr, (h i pfn hgt).getPfn⟩
  rw [(foldl_freeFrame le_rfl hw).1 q, hnt, take_length]

/-- The frames that the loop comes to are those it can put into an entry. -/
def WholeFrames (room : Nat → Bool) (pages : List (BitVec 32)) : Prop :=
  ∀ i pfn, pages[i]? = some pfn → (∀ j ≤ i, room j = true) → pfn.toNat < 2 ^ 20

variable {per : BitVec 64} {room : Nat → Bool}

/-- The loop of `MmMapPinnedPagesMdl` behind the pages of `done`, which it has mapped. -/
theorem mapPages_behind {net : BitVec 32 → Int}
    (done : List (BitVec 32)) (hb : test per miscIsFromPmm = true)
    (hh : m.Shows address done) (hnt : ∀ q, m.net q = net q + done.count q)
    (hw : WholeFrames (fun j => room (done.length + j)) pages) :
    let r := mapPages per address room pages done.length m
    (r.1 = true → r.2.Shows address (done ++ pages) ∧
        ∀ q, r.2.net q = net q + (done ++ pages).count q) ∧
      (r.1 = false → ∀ q, r.2.net q = net q) := by
  induction pages generalizing m done with
  | nil =>
    rw [append_nil]
    exact ⟨fun _ => ⟨hh, hnt⟩, fun h => absurd h Bool.true_eq_false.mp⟩
  | cons pfn pages ih =>
    cases hrm : room done.length with
    | false =>
      rw [mapPages, miMapPhysicalPage, hrm, if_neg Bool.false_ne_true]
      refine ⟨fun h => absurd h Bool.false_ne_true, fun _ q => ?_⟩
      have hdn : (m.mmPageAddReference pfn).Shows address done := hh
      rw [net_mmFreePhysicalPage, miUnmapPages_spec hdn, net_mmPageAddReference, hnt]
      omega
    | true =>
      have hsm : pfn.toNat < 2 ^ 20 := by
        refine hw 0 pfn rfl fun j hj => ?_
        rw [Nat.le_zero.1 hj]
        exact hrm
      rw [mapPages, miMapPhysicalPage, hrm, if_pos rfl, mmPhysPageToPFN_mul hsm]
      have hdn : (m.mmPageAddReference pfn).Shows address done := hh
      have hrs := ih (done ++ [pfn]) (hdn.snoc (mapsFrame_build hsm hb)) (fun q => by
          rw [net_setPte, net_mmPageAddReference, hnt, count_append]
          omega)
        (fun i pfn' hgt hrms => hw (i + 1) pfn' hgt fun j hj => by
          cases j with
          | zero => exact hrm
          | succ j =>
            have hj' := hrms j (by omega)
            simp only [length_append, length_singleton, Nat.add_right_comm] at hj'
            exact hj')
      rw [length_append, length_singleton, append_assoc, singleton_append] at hrs
      exact hrs

/-- **The loop of `MmMapPinnedPagesMdl`** maps every page and takes a reference to each, or leaves
the references as they were. -/
theorem mapPages_spec (hb : test per miscIsFromPmm = true) (hw : WholeFrames room pages)
    (m : KernelSpace) (address : Nat) :
    let r := mapPages per address room pages 0 m
    (r.1 = true → r.2.Shows address pages ∧ ∀ q, r.2.net q = m.net q + pages.count q) ∧
      (r.1 = false → ∀ q, r.2.net q = m.net q) := by
  have hw' : WholeFrames (fun j => room (([] : List (BitVec 32)).length + j)) pages := by
    simpa using hw
  exact mapPages_behind [] hb (fun i pfn hgt => by simp at hgt) (fun q => by simp) hw'

end KernelSpace

end Boron.Mm.Amd64
