import Boron.Mm.Mdl

/-! # The life of a mapping (`mm/mdl.c`)

The calls `MmMapPinnedPagesMdl`, `MmUnmapPagesMdl`, `MmUnpinPagesMdl` and `MmFreeMdl` are made on a
captured MDL in any order, while the rest of the system changes other entries. `MmUnmapPagesMdl`
clears the flag but keeps the saved address, which the next `MmMapPinnedPagesMdl` hands out again.
`mapping_right_of_reaches` says that nothing else goes wrong, besides the frame numbers that a product
of 32 bits loses. -/

namespace Boron.Mm.Amd64

open Option

/-- `MmInitializeSinglePageMdl`, with the flags that the caller asks for. -/
def mmInitializeSinglePageMdl (space : KernelSpace) (pfn : BitVec 32)
    (mapped write fromPool : Bool) : MdlState where
  mdl :=
    { byteOffset := 0
      byteCount := pageSize
      sourceStartVA := 2 ^ 64 - 1
      mappedStartVA := 0
      captured := true
      mapped
      write
      fromPool
      pages := [pfn] }
  space := space.mmPageAddReference pfn
  freed := false

/-- What happens to an MDL: one of the calls, or work of others on the page tables. -/
inductive MdlCall
  | map (addressV : Option Nat) (room : Nat → Bool)
  | unmap
  | unpin
  | free
  | others (pte : Nat → BitVec 64)

namespace MdlState

/-- One call. There is no call on an MDL that was given back to the pool. -/
def step (s : MdlState) (c : MdlCall) : Option MdlState :=
  if s.freed then none
  else
    match c with
    | .map addressV room => some (s.mmMapPinnedPagesMdl addressV room).2.2
    | .unmap => some s.mmUnmapPagesMdl
    | .unpin => some s.mmUnpinPagesMdl
    | .free => some s.mmFreeMdl
    | .others pte => some { s with space := { s.space with pte } }

/-- A buffer that was captured: it has a reference to each of its pages, and is not mapped. -/
structure Captured (s : MdlState) : Prop where
  captured : s.mdl.captured = true
  unmapped : s.mdl.mapped = false
  noAddress : s.mdl.mappedStartVA = 0
  net : ∀ q, s.space.net q = s.mdl.pages.count q

/-- What the call relies on: a pool area is not at address 0, and nobody changes what the area of
the MDL is mapped to. -/
def Contract (s : MdlState) : MdlCall → Prop
  | .map addressV _ => addressV ≠ some 0
  | .others pte =>
    s.mdl.mapped = true → s.space.Shows s.mdl.mappedStartVA s.mdl.pages →
      KernelSpace.Shows { s.space with pte } s.mdl.mappedStartVA s.mdl.pages
  | _ => True

/-- The call does as it should: the address that `MmMapPinnedPagesMdl` returns leads to the pages of
the buffer, and `MmFreeMdl` leaves no reference behind. -/
def CallRight (s : MdlState) : MdlCall → Prop
  | .map addressV room =>
    let r := s.mmMapPinnedPagesMdl addressV room
    r.1 = .success ∨ r.1 = .noRemap →
      ∃ va, r.2.1 = some (va + s.mdl.byteOffset) ∧ ∀ i pfn, s.mdl.pages[i]? = some pfn →
        mmIsPresentPte (r.2.2.space.pte (va + i * pageSize)) = true ∧
          physicalAddress (r.2.2.space.pte (va + i * pageSize)) = pfn.toNat * pageSize
  | .free => ∀ q, s.mmFreeMdl.space.net q = 0
  | _ => True

/-- A mapping is not asked for once there was one that is gone, and its frames are those of the first
4 GiB. -/
def Meets (s : MdlState) : MdlCall → Prop
  | .map addressV room =>
    (s.mdl.mappedStartVA ≠ 0 → s.mdl.mapped = true) ∧
      (s.mdl.mappedStartVA = 0 → addressV ≠ none → KernelSpace.WholeFrames room s.mdl.pages)
  | _ => True

/-! ## One call -/

variable {s s' : MdlState} {pfn : BitVec 32}

/-- The references of an MDL are those of its capture and of its mapping. -/
structure Inv (s : MdlState) : Prop where
  mapping : s.mdl.mapped = true →
    s.mdl.mappedStartVA ≠ 0 ∧ s.space.Shows s.mdl.mappedStartVA s.mdl.pages
  net : ∀ q, s.space.net q =
    (if s.mdl.captured then (s.mdl.pages.count q : Int) else 0) +
      (if s.mdl.mapped then (s.mdl.pages.count q : Int) else 0)

theorem Captured.inv (h : s.Captured) : s.Inv where
  mapping := fun hp => absurd (h.unmapped.symm.trans hp) Bool.false_ne_true
  net := fun q => by rw [h.net, h.captured, h.unmapped]; simp

theorem Inv.unmap (h : s.Inv) : s.mmUnmapPagesMdl.Inv := by
  rw [mmUnmapPagesMdl]
  split
  · next hp =>
      refine ⟨fun hm => absurd hm Bool.false_ne_true, fun q => ?_⟩
      rw [KernelSpace.miUnmapPages_spec (h.mapping hp).2, h.net, hp]
      simp
  · exact h

theorem mapped_unmap (s : MdlState) : s.mmUnmapPagesMdl.mdl.mapped = false := by
  rw [mmUnmapPagesMdl]
  split
  · rfl
  · next hp => exact Bool.eq_false_iff.2 hp

theorem Inv.unpin (h : s.Inv) : s.mmUnpinPagesMdl.Inv := by
  rw [mmUnpinPagesMdl]
  have hu := h.unmap
  have hp := mapped_unmap s
  generalize s.mmUnmapPagesMdl = u at hu hp
  simp only
  split
  · next hc =>
      refine ⟨fun hm => absurd (hp.symm.trans hm) Bool.false_ne_true, fun q => ?_⟩
      rw [KernelSpace.net_foldl_mmFreePhysicalPage, hu.net, hc, hp]
      simp
  · exact hu

theorem flags_unpin (s : MdlState) :
    s.mmUnpinPagesMdl.mdl.captured = false ∧ s.mmUnpinPagesMdl.mdl.mapped = false := by
  rw [mmUnpinPagesMdl]
  have hp := mapped_unmap s
  generalize s.mmUnmapPagesMdl = u at hp
  simp only
  split
  · exact ⟨rfl, hp⟩
  · next hc => exact ⟨Bool.eq_false_iff.2 hc, hp⟩

theorem free_eq (s : MdlState) : s.mmFreeMdl.mdl = s.mmUnmapPagesMdl.mmUnpinPagesMdl.mdl ∧
      s.mmFreeMdl.space = s.mmUnmapPagesMdl.mmUnpinPagesMdl.space := by
  simp only [mmFreeMdl]
  split <;> exact ⟨rfl, rfl⟩

theorem Inv.free (h : s.Inv) : s.mmFreeMdl.Inv := by
  obtain ⟨hp, hnt⟩ := h.unmap.unpin
  obtain ⟨hmd, hsp⟩ := free_eq s
  rw [← hmd, ← hsp] at hp hnt
  exact ⟨hp, hnt⟩

variable {space : KernelSpace}

theorem mmInitializeSinglePageMdl_captured (hnt : ∀ q, space.net q = 0)
    (pfn : BitVec 32) (write fp : Bool) :
    (mmInitializeSinglePageMdl space pfn false write fp).Captured where
  captured := rfl
  unmapped := rfl
  noAddress := rfl
  net := fun q => by
    rw [mmInitializeSinglePageMdl, KernelSpace.net_mmPageAddReference, hnt, Int.zero_add]

theorem permissions_fromPmm (mdl : Mdl) : test mdl.permissions miscIsFromPmm = true := by
  rw [Mdl.permissions]
  split <;> decide

variable {addressV : Option Nat} {room : Nat → Bool}

theorem map_failed {adr : Nat} (hva : s.mdl.mappedStartVA = 0)
    (hp : s.space.mapPages s.mdl.permissions adr room s.mdl.pages 0 = (false, space)) :
    s.mmMapPinnedPagesMdl (some adr) room = (.insufficientMemory, none, { s with space }) := by
  rw [mmMapPinnedPagesMdl.eq_def, if_neg (not_not.2 hva)]
  simp only [hp]

theorem map_mapped {adr : Nat} (hva : s.mdl.mappedStartVA = 0)
    (hp : s.space.mapPages s.mdl.permissions adr room s.mdl.pages 0 = (true, space)) :
    s.mmMapPinnedPagesMdl (some adr) room = (.success, some (adr + s.mdl.byteOffset),
      { s with space, mdl := { s.mdl with mappedStartVA := adr, mapped := true } }) := by
  rw [mmMapPinnedPagesMdl.eq_def, if_neg (not_not.2 hva)]
  simp only [hp]

theorem Inv.map (h : s.Inv) (hC : s.Contract (.map addressV room)) (hM : s.Meets (.map addressV room)) :
    (s.mmMapPinnedPagesMdl addressV room).2.2.Inv ∧ s.CallRight (.map addressV room) := by
  obtain ⟨hlv, hw⟩ := hM
  simp only [CallRight]
  by_cases hva : s.mdl.mappedStartVA = 0
  · have hu : s.mdl.mapped = false :=
      Bool.eq_false_iff.2 fun hmp => (h.mapping hmp).1 hva
    cases addressV with
    | none =>
      rw [show s.mmMapPinnedPagesMdl none room = (.insufficientMemory, none, s) from
        if_neg (not_not.2 hva)]
      exact ⟨h, fun hst => by simp at hst⟩
    | some adr =>
      obtain ⟨hal, hb⟩ := KernelSpace.mapPages_spec (permissions_fromPmm s.mdl)
        (hw hva (some_ne_none _)) s.space adr
      cases hlp : s.space.mapPages s.mdl.permissions adr room s.mdl.pages 0 with
      | mk ma space =>
      rw [hlp] at hal hb
      cases ma with
      | false =>
        rw [map_failed hva hlp]
        refine ⟨⟨fun hm => absurd (hu.symm.trans hm) Bool.false_ne_true, fun q => ?_⟩,
          fun hst => by simp at hst⟩
        exact (hb rfl q).trans (h.net q)
      | true =>
        rw [map_mapped hva hlp]
        obtain ⟨hh, hnt⟩ := hal rfl
        refine ⟨⟨fun _ => ⟨?_, hh⟩, fun q => ?_⟩, fun _ => ⟨adr, rfl, ?_⟩⟩
        · exact fun hz => hC (congrArg some hz)
        · change space.net q = _
          rw [hnt, h.net, hu]
          simp
        · intro i pfn hgt
          obtain ⟨hp, -, ha⟩ := hh i pfn hgt
          exact ⟨hp, ha⟩
  · -- what is handed out again is still mapped
    rw [show s.mmMapPinnedPagesMdl addressV room =
      (.noRemap, some (s.mdl.mappedStartVA + s.mdl.byteOffset), s) from if_pos hva]
    refine ⟨h, fun _ => ⟨_, rfl, fun i pfn hgt => ?_⟩⟩
    obtain ⟨hp, -, ha⟩ := (h.mapping (hlv hva)).2 i pfn hgt
    exact ⟨hp, ha⟩

theorem free_right (h : s.Inv) : s.CallRight .free := by
  intro q
  obtain ⟨hmd, -⟩ := free_eq s
  obtain ⟨hc, hp⟩ := flags_unpin s.mmUnmapPagesMdl
  rw [h.free.net, hmd, hc, hp]
  simp

theorem Inv.right {c : MdlCall} (h : s.Inv) (hC : s.Contract c) (hM : s.Meets c) : s.CallRight c := by
  cases c with
  | map addressV room => exact (h.map hC hM).2
  | free => exact free_right h
  | _ => trivial

theorem Inv.step {c : MdlCall} (h : s.Inv) (hC : s.Contract c) (hM : s.Meets c)
    (hst : s.step c = some s') : s'.Inv := by
  rw [MdlState.step.eq_def] at hst
  split at hst
  · cases hst
  · cases c with
    | map addressV room =>
      cases hst
      exact (h.map hC hM).1
    | unmap =>
      cases hst
      exact h.unmap
    | unpin =>
      cases hst
      exact h.unpin
    | free =>
      cases hst
      exact h.free
    | others pte =>
      cases hst
      exact ⟨fun hp => ⟨(h.mapping hp).1, hC hp (h.mapping hp).2⟩, h.net⟩

/-! ## Every run -/

/-- **Each call on a captured MDL does as it should**, in every run that never asks for a mapping
after one is gone, and maps frames of the first 4 GiB only. -/
theorem mapping_right_of_reaches {s₀ : MdlState} {c : MdlCall} (h₀ : s₀.Captured)
    (h : Reaches step (fun s c => s.Contract c ∧ s.Meets c) s₀ s) (hC : s.Contract c)
    (hM : s.Meets c) : s.CallRight c :=
  (h.invariant h₀.inv fun _ _ _ hI hCM hst => hI.step hCM.1 hCM.2 hst).right hC hM

/-- A page on its own, in a kernel that maps nothing. -/
def onePage (pfn : BitVec 32) : MdlState :=
  mmInitializeSinglePageMdl ⟨fun _ => mmBuildZeroPte, fun _ => 0⟩ pfn false true false

def mappedOnce : MdlState := ((onePage 5).mmMapPinnedPagesMdl (some 0x10000) fun _ => true).2.2

theorem onePage_captured (pfn : BitVec 32) : (onePage pfn).Captured :=
  mmInitializeSinglePageMdl_captured (fun _ => rfl) pfn true false

theorem step_onePage : (onePage 5).step (.map (some 0x10000) fun _ => true) = some mappedOnce := rfl

theorem mapping_right_once :
    mappedOnce.CallRight (.map none fun _ => false) ∧ mappedOnce.CallRight .free := by
  have hw : KernelSpace.WholeFrames (fun _ => true) [5] := by
    intro i pfn hgt _
    obtain rfl := List.mem_singleton.1 (List.mem_of_getElem? hgt)
    decide
  have hc : Reaches step (fun s c => s.Contract c ∧ s.Meets c) (onePage 5) mappedOnce :=
    .single (a := .map (some 0x10000) fun _ => true)
      ⟨(by decide : some 0x10000 ≠ some 0), fun h => absurd rfl h, fun _ _ => hw⟩ step_onePage
  exact ⟨mapping_right_of_reaches (onePage_captured 5) hc ((some_ne_none 0).symm)
      ⟨fun _ => rfl, fun h => absurd h (by decide)⟩,
    mapping_right_of_reaches (onePage_captured 5) hc trivial trivial⟩

/-- A buffer that is mapped, unmapped and mapped again gets the address of the mapping that is gone;
the first frame beyond 4 GiB is mapped as frame 0. -/
theorem mapping_wrong : (∃ s₀ s : MdlState, s₀.Captured ∧ Reaches step Contract s₀ s ∧
      s.Contract (.map none fun _ => true) ∧ ¬ s.CallRight (.map none fun _ => true)) ∧
    ∃ s₀ : MdlState, s₀.Captured ∧ s₀.Contract (.map (some 0x10000) fun _ => true) ∧
      ¬ s₀.CallRight (.map (some 0x10000) fun _ => true) := by
  constructor
  · refine ⟨onePage 5, mappedOnce.mmUnmapPagesMdl, onePage_captured 5, ?_, (some_ne_none 0).symm,
      fun h => ?_⟩
    · have hp : Reaches step Contract (onePage 5) mappedOnce :=
        .single (a := .map (some 0x10000) fun _ => true)
          (by decide : some 0x10000 ≠ some 0) step_onePage
      exact hp.tail (a := .unmap) trivial rfl
    · obtain ⟨va, hva, hpages⟩ := h (.inr rfl)
      obtain rfl : 0x10000 = va := some.inj hva
      exact absurd (hpages 0 5 rfl).1 (by decide)
  · refine ⟨onePage 0x100000, onePage_captured _, (by decide : some 0x10000 ≠ some 0), fun h => ?_⟩
    obtain ⟨va, hva, hpages⟩ := h (.inl rfl)
    obtain rfl : 0x10000 = va := some.inj hva
    exact absurd (hpages 0 0x100000 rfl).2 (by decide)

end MdlState

end Boron.Mm.Amd64
