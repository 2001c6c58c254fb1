import Mathlib.Data.Finset.Card
import Boron.Mm.PteCodec

/-! # Unmapping a range (`mm/amd64/pt.c`)

`MiUnmapPages` goes twice over the pages of a range, with a TLB shootdown between. The first pass
rewrites each entry so that the processor no longer uses it, and what it writes has to tell the second
pass which frames are the allocator's. The mask of `MmBuildWasPresentPte` keeps the present bit, so
the first pass takes no page away: pages of the allocator go in the second pass, pages of a device
stay mapped. `unmap_right_iff` says that a call is right just if there are none of these. -/

namespace Boron.Mm

open Function List

namespace Amd64

/-! ## Tables -/

/-- The place of an entry: the frame of its table and its index there. -/
abbrev Place : Type := BitVec 32 × Nat

/-- The entries of the tables, and the frames that were passed to `MmFreePhysicalPage`. -/
structure Tables where
  entries : Place → BitVec 64
  freed : List (BitVec 32)

def ptePageSize : BitVec 64 := 1#64 <<< 7

def mmIsUnsupportedHigherLevelPte (pte : BitVec 64) : Bool :=
  mmIsPresentPte pte && test pte ptePageSize

/-- `indices[pml]`, with `pml = level + 1`. -/
def pmlIndex (level address : Nat) : Nat := address / 2 ^ (12 + 9 * level) % 512

/-- The table that an entry of a higher level links to. -/
def linkedTable (entry : BitVec 64) : Option (BitVec 32) :=
  if !mmIsPresentPte entry then none
  else if mmIsUnsupportedHigherLevelPte entry then none
  else some (mmGetPfnPte entry)

/-- `MiGetPTEPointer` with `AllocateMissingPMLs` clear, from the table of a level on. -/
def walk (entries : Place → BitVec 64) : Nat → BitVec 32 → Nat → Option Place
  | 0, table, address => some (table, pmlIndex 0 address)
  | level + 1, table, address =>
    (linkedTable (entries (table, pmlIndex (level + 1) address))).bind fun next =>
      walk entries level next address

def miGetPTEPointer (entries : Place → BitVec 64) (mapping : BitVec 32) (address : Nat) :
    Option Place :=
  walk entries 3 mapping address

/-- `Address + i * PAGE_SIZE`. -/
def pageAddress (address i : Nat) : Nat := (address + i * pageSize) % wordSize

/-- What the first loop writes for an entry. -/
def unsetPte (pte : BitVec 64) : BitVec 64 :=
  if mmIsPresentPte pte then mmBuildWasPresentPte pte else mmBuildZeroPte

namespace Tables

/-- One turn of the first loop. -/
def unsetPresent (mapping : BitVec 32) (s : Tables) (address : Nat) : Tables :=
  match miGetPTEPointer s.entries mapping address with
  | none => s
  | some pte => { s with entries := update s.entries pte (unsetPte (s.entries pte)) }

/-- One turn of the second loop. -/
def freeFromPmm (mapping : BitVec 32) (s : Tables) (address : Nat) : Tables :=
  match miGetPTEPointer s.entries mapping address with
  | none => s
  | some pte =>
    if mmIsFromPmmPte (s.entries pte) then
      { entries := update s.entries pte mmBuildZeroPte
        freed := s.freed ++ [mmGetPfnPte (s.entries pte)] }
    else s

/-- The addresses of a range's pages. -/
def pages (address lengthPages : Nat) : List Nat :=
  (List.range lengthPages).map (pageAddress address)

def miUnmapPages (s : Tables) (mapping : BitVec 32) (address lengthPages : Nat) : Tables :=
  let unset := (pages address lengthPages).foldl (unsetPresent mapping) s
  (pages address lengthPages).foldl (freeFromPmm mapping) unset

end Tables

/-! ## What is asked of a call -/

/-- The places of the links that a walk reads. -/
def links (entries : Place → BitVec 64) : Nat → BitVec 32 → Nat → List Place
  | 0, _, _ => []
  | level + 1, table, address =>
    let place := (table, pmlIndex (level + 1) address)
    match linkedTable (entries place) with
    | none => [place]
    | some next => place :: links entries level next address

/-- The last-level entries for these addresses, as far as there are tables for them. -/
def ptes (entries : Place → BitVec 64) (mapping : BitVec 32) (addresses : List Nat) : Finset Place :=
  (addresses.filterMap (miGetPTEPointer entries mapping)).toFinset

namespace Tables

/-- The tables themselves do not count as pages of the allocator: `MiGetPTEPointer` and
`MiCreatePageMapping` link them without `MM_MISC_IS_FROM_PMM`. -/
def LinksUnowned (s : Tables) (mapping : BitVec 32) (addresses : List Nat) : Prop :=
  ∀ address ∈ addresses, ∀ place ∈ links s.entries 3 mapping address,
    mmIsFromPmmPte (s.entries place) = false

/-- What unmapping should do. A frame goes once for each entry that maps it, for each entry has a
reference to it. -/
structure UnmapRight (s : Tables) (mapping : BitVec 32) (address lengthPages : Nat) : Prop where
  gone : ∀ pte ∈ ptes s.entries mapping (pages address lengthPages),
    mmIsPresentPte ((s.miUnmapPages mapping address lengthPages).entries pte) = false ∧
      mmWasPresentPte ((s.miUnmapPages mapping address lengthPages).entries pte) = false
  freed : ∀ frame, (s.miUnmapPages mapping address lengthPages).freed.count frame =
    s.freed.count frame + ((ptes s.entries mapping (pages address lengthPages)).filter fun pte =>
      mmIsPresentPte (s.entries pte) ∧ mmIsFromPmmPte (s.entries pte) ∧
        mmGetPfnPte (s.entries pte) = frame).card
  elsewhere : ∀ pte ∉ ptes s.entries mapping (pages address lengthPages),
    (s.miUnmapPages mapping address lengthPages).entries pte = s.entries pte

end Tables

/-! ## The entry between the passes -/

section

variable {pte : BitVec 64} {i : Nat}

/-- The mask keeps the lower 48 bits, the present bit among them. -/
theorem getLsbD_wasPresent (hi : i < 48) : (mmBuildWasPresentPte pte).getLsbD i = pte.getLsbD i := by
  have hms : (0x8000FFFFFFFFFFFF : BitVec 64).getLsbD i = true := by
    rw [show (0x8000FFFFFFFFFFFF : BitVec 64) = BitVec.ofNat 64 (2 ^ 48 - 1) ||| 1#64 <<< 63 by decide,
      BitVec.getLsbD_or, getLsbD_lowBits (by decide), decide_eq_true hi, Bool.true_or]
  have hb : dpteWasPresent.getLsbD i = false := by
    rw [dpteWasPresent, getLsbD_bit (by decide), decide_eq_false (by omega)]
  rw [mmBuildWasPresentPte, BitVec.getLsbD_or, BitVec.getLsbD_and, hms, hb, Bool.and_true,
    Bool.or_false]

theorem test_wasPresent (hi : i < 48) :
    test (mmBuildWasPresentPte pte) (1#64 <<< i) = test pte (1#64 <<< i) := by
  rw [test_bit _ _ (by omega), test_bit _ _ (by omega), getLsbD_wasPresent hi]

theorem isPresent_unset : mmIsPresentPte (unsetPte pte) = mmIsPresentPte pte := by
  cases h : mmIsPresentPte pte with
  | true => rw [unsetPte, if_pos h]; exact (test_wasPresent (by decide)).trans h
  | false => rw [unsetPte, h, if_neg Bool.false_ne_true]; rfl

theorem getPfn_unset (h : mmIsPresentPte pte = true) :
    mmGetPfnPte (unsetPte pte) = mmGetPfnPte pte := by
  rw [unsetPte, if_pos h]
  refine BitVec.eq_of_getLsbD_eq fun i hi => ?_
  simp only [mmGetPfnPte, BitVec.getLsbD_setWidth, BitVec.getLsbD_ushiftRight, BitVec.getLsbD_and,
    getLsbD_wasPresent (show 12 + i < 48 by omega)]

theorem linkedTable_unset : linkedTable (unsetPte pte) = linkedTable pte := by
  have hp : mmIsPresentPte (unsetPte pte) = mmIsPresentPte pte := isPresent_unset
  cases h : mmIsPresentPte pte with
  | false => simp [linkedTable, hp, h]
  | true =>
    have hpf := getPfn_unset h
    have hsize : test (mmBuildWasPresentPte pte) ptePageSize = test pte ptePageSize :=
      test_wasPresent (by decide)
    rw [h] at hp
    rw [unsetPte, if_pos h] at hp hpf ⊢
    simp only [linkedTable, mmIsUnsupportedHigherLevelPte, hp, h, hpf, hsize]

/-- The second pass takes an entry for one of the allocator if the processor could use it before the
first. -/
theorem isFromPmm_unset :
    mmIsFromPmmPte (unsetPte pte) = (mmIsPresentPte pte && mmIsFromPmmPte pte) := by
  have hp : mmIsPresentPte (unsetPte pte) = mmIsPresentPte pte := isPresent_unset
  cases h : mmIsPresentPte pte with
  | false => rw [unsetPte, h, if_neg Bool.false_ne_true]; rfl
  | true =>
    have hb : test (mmBuildWasPresentPte pte) pteIsFromPmm = test pte pteIsFromPmm :=
      test_wasPresent (by decide)
    rw [h] at hp
    rw [unsetPte, if_pos h] at hp ⊢
    simp only [mmIsFromPmmPte, hp, h, hb, Bool.true_or, Bool.true_and]

theorem unset_unset : unsetPte (unsetPte pte) = unsetPte pte := by
  cases h : mmIsPresentPte pte with
  | false => rw [unsetPte, isPresent_unset, h, unsetPte, h]; rfl
  | true =>
    rw [unsetPte, isPresent_unset, h, unsetPte, h, if_pos rfl, if_pos rfl]
    refine BitVec.eq_of_getLsbD_eq fun i hi => ?_
    simp only [mmBuildWasPresentPte, BitVec.getLsbD_or, BitVec.getLsbD_and]
    cases pte.getLsbD i <;> cases (0x8000FFFFFFFFFFFF : BitVec 64).getLsbD i <;> simp

end

/-! ## Walks -/

section

variable {m m' : Place → BitVec 64} {table mapping : BitVec 32} {level address : Nat}

theorem walk_congr (h : ∀ place ∈ links m level table address,
    linkedTable (m' place) = linkedTable (m place)) :
    walk m' level table address = walk m level table address ∧
      links m' level table address = links m level table address := by
  induction level generalizing table with
  | zero => exact ⟨rfl, rfl⟩
  | succ level ih =>
    have hh : linkedTable (m' (table, pmlIndex (level + 1) address)) =
        linkedTable (m (table, pmlIndex (level + 1) address)) := by
      refine h _ ?_
      rw [links]
      split
      · exact mem_singleton_self _
      · exact mem_cons_self
    rw [walk, walk, links, links, hh]
    cases hnext : linkedTable (m (table, pmlIndex (level + 1) address)) with
    | none => exact ⟨rfl, rfl⟩
    | some next =>
      have hrs : ∀ place ∈ links m level next address,
          linkedTable (m' place) = linkedTable (m place) := by
        intro place hp
        refine h place ?_
        rw [links, hnext]
        exact mem_cons_of_mem _ hp
      obtain ⟨hw, hln⟩ := ih hrs
      exact ⟨hw, congrArg _ hln⟩

theorem mem_ptes {addresses : List Nat} {pte : Place} : pte ∈ ptes m mapping addresses ↔
      ∃ address ∈ addresses, miGetPTEPointer m mapping address = some pte := by
  rw [ptes, mem_toFinset, mem_filterMap]

theorem ptes_congr {addresses : List Nat}
    (h : ∀ address ∈ addresses, miGetPTEPointer m' mapping address = miGetPTEPointer m mapping address) :
    ptes m' mapping addresses = ptes m mapping addresses := by
  ext pte
  rw [mem_ptes, mem_ptes]
  refine exists_congr fun address => and_congr_right fun ha => ?_
  rw [h address ha]

theorem ptes_cons_none {addresses : List Nat} (h : miGetPTEPointer m mapping address = none) :
    ptes m mapping (address :: addresses) = ptes m mapping addresses := by
  rw [ptes, filterMap_cons_none h, ptes]

theorem ptes_cons_some {addresses : List Nat} {pte : Place}
    (h : miGetPTEPointer m mapping address = some pte) :
    ptes m mapping (address :: addresses) = insert pte (ptes m mapping addresses) := by
  rw [ptes, filterMap_cons_some h, toFinset_cons, ptes]

end

/-! ## The passes -/

namespace Tables

variable {s : Tables} {mapping : BitVec 32} {address : Nat} {pte : Place} {addresses : List Nat}

/-- The first pass moves no walk. -/
theorem getPte_unsetPresent (a : Nat) :
    miGetPTEPointer (s.unsetPresent mapping address).entries mapping a =
        miGetPTEPointer s.entries mapping a ∧
      links (s.unsetPresent mapping address).entries 3 mapping a = links s.entries 3 mapping a := by
  refine walk_congr fun place _ => ?_
  rw [unsetPresent]
  split
  · rfl
  · next pte _ =>
      show linkedTable (update s.entries pte (unsetPte (s.entries pte)) place) = _
      by_cases hp : place = pte
      · rw [hp, update_self, linkedTable_unset]
      · rw [update_of_ne hp]

/-- **The first pass** rewrites the entries of the range, and frees nothing. -/
theorem unset_pass (mapping : BitVec 32) (addresses : List Nat) (s : Tables) :
    (∀ pte, (addresses.foldl (unsetPresent mapping) s).entries pte =
      if pte ∈ ptes s.entries mapping addresses then unsetPte (s.entries pte) else s.entries pte) ∧
    (addresses.foldl (unsetPresent mapping) s).freed = s.freed ∧
    ∀ a, links (addresses.foldl (unsetPresent mapping) s).entries 3 mapping a =
        links s.entries 3 mapping a ∧
      miGetPTEPointer (addresses.foldl (unsetPresent mapping) s).entries mapping a =
        miGetPTEPointer s.entries mapping a := by
  induction addresses generalizing s with
  | nil => exact ⟨fun pte => (if_neg (by simp [ptes])).symm, rfl, fun a => ⟨rfl, rfl⟩⟩
  | cons address addresses ih =>
    obtain ⟨he, hfreed, hw⟩ := ih (s.unsetPresent mapping address)
    rw [foldl_cons]
    have hp : ptes (s.unsetPresent mapping address).entries mapping addresses =
        ptes s.entries mapping addresses := ptes_congr fun a _ => (getPte_unsetPresent a).1
    refine ⟨fun pte => ?_, ?_, fun a => ?_⟩
    · rw [he, hp]
      cases hgt : miGetPTEPointer s.entries mapping address with
      | none =>
        have hsm : s.unsetPresent mapping address = s := by rw [unsetPresent, hgt]
        rw [hsm, ptes_cons_none hgt]
      | some first =>
        have hfs : (s.unsetPresent mapping address).entries =
            update s.entries first (unsetPte (s.entries first)) := by
          rw [unsetPresent, hgt]
        rw [hfs, ptes_cons_some hgt]
        by_cases heq : pte = first
        · rw [heq, update_self, unset_unset, ite_self, if_pos (Finset.mem_insert_self _ _)]
        · simp only [update_of_ne heq, Finset.mem_insert, heq, false_or]
    · rw [hfreed, unsetPresent]
      split <;> rfl
    · rw [(hw a).1, (hw a).2]
      exact ⟨(getPte_unsetPresent a).2, (getPte_unsetPresent a).1⟩

/-- The entries of a pass that the allocator owns. -/
def ownedPtes (s : Tables) (mapping : BitVec 32) (addresses : List Nat) (frame : BitVec 32) :
    Finset Place :=
  (ptes s.entries mapping addresses).filter fun pte =>
    mmIsFromPmmPte (s.entries pte) ∧ mmGetPfnPte (s.entries pte) = frame

theorem freeFromPmm_none (h : miGetPTEPointer s.entries mapping address = none) :
    s.freeFromPmm mapping address = s := by
  rw [freeFromPmm, h]

theorem freeFromPmm_kept (h : miGetPTEPointer s.entries mapping address = some pte)
    (hw : mmIsFromPmmPte (s.entries pte) = false) : s.freeFromPmm mapping address = s := by
  simp only [freeFromPmm, h, hw, Bool.false_eq_true, if_false]

theorem freeFromPmm_freed (h : miGetPTEPointer s.entries mapping address = some pte)
    (hw : mmIsFromPmmPte (s.entries pte) = true) :
    s.freeFromPmm mapping address =
      { entries := update s.entries pte mmBuildZeroPte
        freed := s.freed ++ [mmGetPfnPte (s.entries pte)] } := by
  simp only [freeFromPmm, h, hw, if_true]

/-- The second pass moves no walk either, as long as the links are not the allocator's. -/
theorem LinksUnowned.walks (h : s.LinksUnowned mapping addresses) {a : Nat} (ha : a ∈ addresses) :
    miGetPTEPointer (s.freeFromPmm mapping address).entries mapping a =
        miGetPTEPointer s.entries mapping a ∧
      links (s.freeFromPmm mapping address).entries 3 mapping a = links s.entries 3 mapping a := by
  refine walk_congr fun place hp => ?_
  have hu := h a ha place hp
  cases hgt : miGetPTEPointer s.entries mapping address with
  | none => rw [freeFromPmm_none hgt]
  | some pte =>
    cases hw : mmIsFromPmmPte (s.entries pte) with
    | false => rw [freeFromPmm_kept hgt hw]
    | true =>
      have hne : place ≠ pte := by
        rintro rfl
        rw [hu] at hw
        cases hw
      rw [freeFromPmm_freed hgt hw]
      show linkedTable (update s.entries pte mmBuildZeroPte place) = _
      rw [update_of_ne hne]

theorem LinksUnowned.step (h : s.LinksUnowned mapping addresses) (address : Nat) :
    (s.freeFromPmm mapping address).LinksUnowned mapping addresses := by
  intro a ha place hp
  rw [(h.walks ha).2] at hp
  have hu := h a ha place hp
  cases hgt : miGetPTEPointer s.entries mapping address with
  | none => rwa [freeFromPmm_none hgt]
  | some pte =>
    cases hw : mmIsFromPmmPte (s.entries pte) with
    | false => rwa [freeFromPmm_kept hgt hw]
    | true =>
      rw [freeFromPmm_freed hgt hw]
      show mmIsFromPmmPte (update s.entries pte mmBuildZeroPte place) = false
      by_cases heq : place = pte
      · rw [heq, update_self]
        rfl
      · rwa [update_of_ne heq]

/-- **The second pass** frees the frames of the allocator's entries, one for each entry. -/
theorem free_pass (addresses : List Nat) (s : Tables) (h : s.LinksUnowned mapping addresses) :
    (∀ pte, (addresses.foldl (freeFromPmm mapping) s).entries pte =
      if pte ∈ ptes s.entries mapping addresses ∧ mmIsFromPmmPte (s.entries pte) = true then
        mmBuildZeroPte
      else s.entries pte) ∧
    ∀ frame, (addresses.foldl (freeFromPmm mapping) s).freed.count frame =
      s.freed.count frame + (s.ownedPtes mapping addresses frame).card := by
  induction addresses generalizing s with
  | nil => exact ⟨fun pte => by simp [ptes], fun frame => by simp [ownedPtes, ptes]⟩
  | cons address addresses ih =>
    have hrs : s.LinksUnowned mapping addresses :=
      fun a ha => h a (mem_cons_of_mem _ ha)
    obtain ⟨he, hfreed⟩ := ih (s.freeFromPmm mapping address) (hrs.step address)
    have hpt : ptes (s.freeFromPmm mapping address).entries mapping addresses =
        ptes s.entries mapping addresses := ptes_congr fun a ha => (hrs.walks ha).1
    rw [foldl_cons]
    simp only [ownedPtes, hpt] at hfreed
    rw [hpt] at he
    cases hgt : miGetPTEPointer s.entries mapping address with
    | none =>
      rw [freeFromPmm_none hgt] at he hfreed ⊢
      simp only [ownedPtes, ptes_cons_none hgt]
      exact ⟨he, hfreed⟩
    | some first =>
      simp only [ownedPtes, ptes_cons_some hgt]
      cases hw : mmIsFromPmmPte (s.entries first) with
      | false =>
        rw [freeFromPmm_kept hgt hw] at he hfreed ⊢
        refine ⟨fun pte => ?_, fun frame => ?_⟩
        · rw [he]
          by_cases heq : pte = first
          · simp [heq, hw]
          · simp [heq]
        · rw [hfreed, Finset.filter_insert, if_neg (by simp [hw])]
      | true =>
        rw [freeFromPmm_freed hgt hw] at he hfreed ⊢
        refine ⟨fun pte => ?_, fun frame => ?_⟩
        · rw [he]
          by_cases heq : pte = first
          · simp [heq, hw]
          · simp [heq]
        · -- the entry is zero now, so a later turn does not find its frame again
          have hers : ((ptes s.entries mapping addresses).filter fun pte =>
              mmIsFromPmmPte (update s.entries first mmBuildZeroPte pte) = true ∧
                mmGetPfnPte (update s.entries first mmBuildZeroPte pte) = frame) =
              (s.ownedPtes mapping addresses frame).erase first := by
            ext pte
            rw [ownedPtes, Finset.mem_filter, Finset.mem_erase, Finset.mem_filter]
            by_cases heq : pte = first
            · simp [heq, show mmIsFromPmmPte mmBuildZeroPte = false by decide]
            · simp [heq]
          rw [hfreed, hers, count_append, Finset.filter_insert]
          change _ = _ + (if mmIsFromPmmPte (s.entries first) = true ∧
            mmGetPfnPte (s.entries first) = frame then
              insert first (s.ownedPtes mapping addresses frame)
            else s.ownedPtes mapping addresses frame).card
          by_cases hfr : mmGetPfnPte (s.entries first) = frame
          · have hc := Finset.card_erase_add_one
              (Finset.mem_insert_self first (s.ownedPtes mapping addresses frame))
            rw [Finset.erase_insert_eq_erase] at hc
            rw [if_pos ⟨hw, hfr⟩, ← hc, hfr, count_singleton_self]
            omega
          · have hnt : first ∉ s.ownedPtes mapping addresses frame := by
              intro hme
              exact hfr (Finset.mem_filter.1 hme).2.2
            rw [if_neg fun hp => hfr hp.2, Finset.erase_eq_of_notMem hnt,
              count_singleton, if_neg (by simpa using hfr), Nat.add_zero]

/-! ## The call -/

variable {lengthPages : Nat}

theorem LinksUnowned.unset (h : s.LinksUnowned mapping addresses) :
    (addresses.foldl (unsetPresent mapping) s).LinksUnowned mapping addresses := by
  obtain ⟨he, -, hw⟩ := unset_pass mapping addresses s
  intro a ha place hp
  rw [(hw a).1] at hp
  have hu := h a ha place hp
  rw [he]
  split
  · rw [isFromPmm_unset, hu, Bool.and_false]
  · exact hu

/-- What a call leaves in the entries, and how often it has freed a frame. -/
theorem miUnmapPages_spec (h : s.LinksUnowned mapping (pages address lengthPages)) :
    (∀ pte, (s.miUnmapPages mapping address lengthPages).entries pte =
      if pte ∈ ptes s.entries mapping (pages address lengthPages) then
        if mmIsPresentPte (s.entries pte) = true ∧ mmIsFromPmmPte (s.entries pte) = true then
          mmBuildZeroPte
        else unsetPte (s.entries pte)
      else s.entries pte) ∧
    ∀ frame, (s.miUnmapPages mapping address lengthPages).freed.count frame =
      s.freed.count frame + ((ptes s.entries mapping (pages address lengthPages)).filter fun pte =>
        mmIsPresentPte (s.entries pte) ∧ mmIsFromPmmPte (s.entries pte) ∧
          mmGetPfnPte (s.entries pte) = frame).card := by
  obtain ⟨hu, hfreed, hw⟩ := unset_pass mapping (pages address lengthPages) s
  obtain ⟨he, hcount⟩ := free_pass (pages address lengthPages) _ h.unset
  have hp := ptes_congr fun a (_ : a ∈ pages address lengthPages) => (hw a).2
  rw [hp] at he
  refine ⟨fun pte => ?_, fun frame => ?_⟩
  · rw [miUnmapPages, he, hu]
    by_cases hme : pte ∈ ptes s.entries mapping (pages address lengthPages)
    · simp only [hme, true_and, if_true, isFromPmm_unset, Bool.and_eq_true]
    · simp only [hme, false_and, if_false]
  · rw [miUnmapPages, hcount, hfreed, ownedPtes, hp]
    congr 2
    refine Finset.filter_congr fun pte hpt => ?_
    rw [hu, if_pos hpt, isFromPmm_unset, Bool.and_eq_true, and_assoc]
    refine and_congr_right fun hpr => ?_
    rw [getPfn_unset hpr]

/-- **Unmapping is right just if the range maps no page of a device.** -/
theorem unmap_right_iff (h : s.LinksUnowned mapping (pages address lengthPages)) :
    s.UnmapRight mapping address lengthPages ↔
      ∀ pte ∈ ptes s.entries mapping (pages address lengthPages),
        mmIsPresentPte (s.entries pte) = true → mmIsFromPmmPte (s.entries pte) = true := by
  obtain ⟨he, hfreed⟩ := miUnmapPages_spec h
  constructor
  · intro hrg pte hpt hpr
    by_contra hw
    have hgn := (hrg.gone pte hpt).1
    rw [he, if_pos hpt, if_neg fun hp => hw hp.2, isPresent_unset, hpr] at hgn
    cases hgn
  · intro hft
    refine ⟨fun pte hpt => ?_, hfreed, fun pte hpt => ?_⟩
    · rw [he, if_pos hpt]
      cases hpr : mmIsPresentPte (s.entries pte) with
      | true =>
        rw [if_pos ⟨rfl, hft pte hpt hpr⟩]
        exact ⟨rfl, rfl⟩
      | false =>
        rw [if_neg (by simp), unsetPte, hpr, if_neg Bool.false_ne_true]
        exact ⟨rfl, rfl⟩
    · rw [he, if_neg hpt]

/-- Tables in the frames 1 to 4, with this entry for the page at address 0. -/
def oneEntry (pte : BitVec 64) : Tables where
  entries place :=
    if place = (4, 0) then pte
    else if place.2 = 0 ∧ place.1 < 4 then
      mmBuildPte (place.1 + 1) (protRead ||| protWrite ||| protExec ||| protUser)
    else mmBuildZeroPte
  freed := []

/-- A frame of the allocator is unmapped. -/
theorem unmap_right_owned :
    (oneEntry (mmBuildPte 5 (protRead ||| miscIsFromPmm))).UnmapRight 1 0 1 := by
  have hu : (oneEntry (mmBuildPte 5 (protRead ||| miscIsFromPmm))).LinksUnowned 1 (pages 0 1) := by
    unfold LinksUnowned
    decide
  refine (unmap_right_iff hu).2 ?_
  decide

/-- A frame of a device stays mapped. -/
theorem unmap_keeps_device : ¬ ∀ (s : Tables) (mapping : BitVec 32) (address lengthPages : Nat),
      s.LinksUnowned mapping (pages address lengthPages) →
        s.UnmapRight mapping address lengthPages := by
  intro h
  have hu : (oneEntry (mmBuildPte 5 protRead)).LinksUnowned 1 (pages 0 1) := by
    unfold LinksUnowned
    decide
  have hgn := ((h _ 1 0 1 hu).gone (4, 0) (by decide)).1
  revert hgn
  decide

end Tables

end Amd64

end Boron.Mm
