import Mathlib.Data.List.Nodup
import Boron.Mm.PteCodec

/-! # Headers of the pool (`mm/poolhdr.c`, `mm/*/pte.c`)

The entries of the pool's list of regions come from pages of their own, each with a bitmap of the
entries in use. An entry's address is the handle of its region, and the page table entry of the
region's first page holds it.

AMD64 reaches these pages through its map of all memory, the 32-bit ports through an area of 2048
pages. -/

namespace Boron.Mm

open Function List

/-! ## The handle in the page table entry -/

namespace Port

def mmBuildPoolHeaderPte (p : Port) (handle : BitVec 64) : BitVec 64 :=
  match p with
  | .amd64 => Amd64.mmBuildPoolHeaderPte handle
  | .i386 => (handle - 0x80000000#64) ||| 1#64 <<< 11
  | .arm => ((handle >>> 3) &&& 0xFFFFFFF#64) <<< 4 ||| 1#64 <<< 2

def mmIsPoolHeaderPte (p : Port) (pte : BitVec 64) : Bool :=
  match p with
  | .amd64 => Amd64.mmIsPoolHeaderPte pte
  | .i386 => !(pte &&& 1#64 <<< 0 != 0) && pte &&& 1#64 <<< 11 != 0
  | .arm => !(pte &&& 3#64 != 0) && pte &&& 1#64 <<< 2 != 0

def mmGetPoolHeaderAddressPte (p : Port) (pte : BitVec 64) : BitVec 64 :=
  match p with
  | .amd64 => Amd64.mmGetPoolHeaderAddressPte pte
  | .i386 => if p.mmIsPoolHeaderPte pte then (pte &&& ~~~(1#64 <<< 11)) + 0x80000000#64 else 0
  | .arm => ((pte >>> 4) &&& 0xFFFFFFF#64) <<< 3 ||| 1#64 <<< 31

end Port

/-! ## Pages of headers -/

def poolEntryCount : Port → Nat
  | .amd64 => 84
  | .i386 => 64
  | .arm => 64

/-- `sizeof(MIPOOL_ENTRY)`. -/
def poolEntrySize : Port → Nat
  | .amd64 => 48
  | .i386 => 32
  | .arm => 32

/-- `MIPOOL_ENTRY_SLAB`, by its page. -/
structure HeaderSlab where
  page : Nat
  bitmap0 : BitVec 64
  bitmap1 : BitVec 64
  deriving DecidableEq, Repr

/-- The pages of headers, and which pages of their area the 32-bit ports have mapped. -/
structure PoolHeaders where
  slabs : List HeaderSlab
  mapped : Nat → Bool

/-- The first page through which headers are reached: that of frame 0, or of the area. -/
def headerBase : Port → Nat
  | .amd64 => 0xFFFF800000000
  | .i386 => 0xD1000
  | .arm => 0xD1000

def poolHdrMaxPfnsMapped : Nat := 2048

/-- The number of pages that headers can be reached through. A `MMPFN` has 32 bits. -/
def headerPages : Port → Nat
  | .amd64 => 0x100000000
  | .i386 => poolHdrMaxPfnsMapped
  | .arm => poolHdrMaxPfnsMapped

/-- `MmpAllocateFromPoolEntrySlab`: the index of the entry. -/
def mmpAllocateFromPoolEntrySlab (p : Port) (slab : HeaderSlab) : Option (HeaderSlab × Nat) :=
  match if slab.bitmap0 ≠ BitVec.allOnes 64 then firstClear slab.bitmap0 64 else none with
  | some i => some ({ slab with bitmap0 := slab.bitmap0 ||| 1#64 <<< i }, i)
  | none =>
    let firstTwentyBitsSet := 1#64 <<< (poolEntryCount p - 64) - 1
    if slab.bitmap1 &&& firstTwentyBitsSet ≠ firstTwentyBitsSet then
      (firstClear slab.bitmap1 (poolEntryCount p - 64)).map fun i =>
        ({ slab with bitmap1 := slab.bitmap1 ||| 1#64 <<< i }, 64 + i)
    else none

/-- The address of an entry of the page. -/
def entryAddress (p : Port) (page index : Nat) : Nat := page * pageSize + index * poolEntrySize p

namespace PoolHeaders

/-- `MiAllocatePoolHeaderSlab`, given the frame that `MmAllocatePhysicalPage` returns. -/
def miAllocatePoolHeaderSlab (p : Port) (h : PoolHeaders) (frame : Option Nat) :
    Option (PoolHeaders × Nat) :=
  frame.bind fun pfn =>
    match p with
    | .amd64 => some (h, headerBase p + pfn)
    | _ =>
      ((List.range poolHdrMaxPfnsMapped).find? fun i => !h.mapped i).map fun i =>
        ({ h with mapped := update h.mapped i true }, headerBase p + i)

def miFreePoolHeaderSlab (p : Port) (h : PoolHeaders) (page : Nat) : PoolHeaders :=
  match p with
  | .amd64 => h
  | _ => { h with mapped := update h.mapped (page - headerBase p) false }

/-- The search of `MiCreatePoolEntry` through the pages there are. -/
def takeEntry (p : Port) : List HeaderSlab → Option (List HeaderSlab × Nat)
  | [] => none
  | slab :: rest =>
    match mmpAllocateFromPoolEntrySlab p slab with
    | some (slab, i) => some (slab :: rest, entryAddress p slab.page i)
    | none => (takeEntry p rest).map fun r => (slab :: r.1, r.2)

/-- `MiCreatePoolEntry`: the address of the entry. -/
def miCreatePoolEntry (p : Port) (h : PoolHeaders) (frame : Option Nat) :
    Option (PoolHeaders × Nat) :=
  match takeEntry p h.slabs with
  | some (slabs, a) => some ({ h with slabs := slabs }, a)
  | none =>
    (h.miAllocatePoolHeaderSlab p frame).bind fun (h, page) =>
      (mmpAllocateFromPoolEntrySlab p ⟨page, 0, 0⟩).map fun (slab, i) =>
        ({ h with slabs := slab :: h.slabs }, entryAddress p page i)

/-- The page with the bit of an entry cleared. -/
def clearEntry (slab : HeaderSlab) (index : Nat) : HeaderSlab :=
  if index / 64 = 0 then { slab with bitmap0 := slab.bitmap0 &&& ~~~(1#64 <<< (index % 64)) }
  else { slab with bitmap1 := slab.bitmap1 &&& ~~~(1#64 <<< (index % 64)) }

def miDeletePoolEntry (p : Port) (h : PoolHeaders) (entry : Nat) : PoolHeaders :=
  let page := entry / pageSize
  let index := entry % pageSize / poolEntrySize p
  match h.slabs.find? fun slab => slab.page == page with
  | none => h
  | some slab =>
    let slab := clearEntry slab index
    if slab.bitmap0 = 0 ∧ slab.bitmap1 = 0 then
      { h with slabs := h.slabs.filter fun other => other.page != page }.miFreePoolHeaderSlab p page
    else
      { h with slabs := h.slabs.map fun other => if other.page = page then slab else other }

end PoolHeaders

/-! ## Entries in use -/

namespace HeaderSlab

/-- The entry is in use. -/
def has (slab : HeaderSlab) (i : Nat) : Bool :=
  if i < 64 then slab.bitmap0.getLsbD i else slab.bitmap1.getLsbD (i - 64)

end HeaderSlab

variable {p : Port} {h h' : PoolHeaders} {slab slab' : HeaderSlab} {slabs slabs' : List HeaderSlab}
  {a b i j page page' : Nat} {frame : Option Nat}

theorem poolEntryCount_le (p : Port) : poolEntryCount p - 64 ≤ 64 := by
  cases p <;> decide

theorem le_poolEntryCount (p : Port) : 64 ≤ poolEntryCount p := by
  cases p <;> decide

/-- **`MmpAllocateFromPoolEntrySlab`** takes an entry that was not in use. -/
theorem allocate_spec (hs : mmpAllocateFromPoolEntrySlab p slab = some (slab', i)) :
    i < poolEntryCount p ∧ slab.has i = false ∧ slab'.page = slab.page ∧
      ∀ j, slab'.has j = (slab.has j || decide (j = i)) := by
  have hcount := poolEntryCount_le p
  have hcount' := le_poolEntryCount p
  rw [mmpAllocateFromPoolEntrySlab] at hs
  split at hs
  · next k hk =>
      obtain ⟨rfl, rfl⟩ := Prod.mk.inj (Option.some.inj hs)
      have hc : firstClear slab.bitmap0 64 = some k := by
        split at hk
        · exact hk
        · cases hk
      obtain ⟨hlt, hb⟩ := firstClear_eq_some le_rfl hc
      refine ⟨by omega, by rw [HeaderSlab.has, if_pos hlt, hb], rfl, fun j => ?_⟩
      simp only [HeaderSlab.has, getLsbD_or_bit hlt]
      split
      · rfl
      · rw [decide_eq_false (by omega), Bool.or_false]
  · simp only at hs
    split at hs
    · obtain ⟨k, hk, heq⟩ := Option.map_eq_some_iff.1 hs
      obtain ⟨rfl, rfl⟩ := Prod.mk.inj heq
      obtain ⟨hlt, hb⟩ := firstClear_eq_some hcount hk
      refine ⟨by omega, ?_, rfl, fun j => ?_⟩
      · rw [HeaderSlab.has, if_neg (by omega), Nat.add_sub_cancel_left, hb]
      · simp only [HeaderSlab.has, getLsbD_or_bit (Nat.lt_of_lt_of_le hlt hcount)]
        split
        · rw [decide_eq_false (by omega), Bool.or_false]
        · have hif : j - 64 = k ↔ j = 64 + k := by omega
          simp only [hif]
    · cases hs

theorem has_clearEntry (hi : i < 128) :
    (PoolHeaders.clearEntry slab i).has j = (slab.has j && !decide (j = i)) := by
  rw [PoolHeaders.clearEntry]
  have hmd : i % 64 < 64 := Nat.mod_lt _ (by decide)
  split
  · simp only [HeaderSlab.has, getLsbD_and_not_bit hmd]
    split
    · have hif : j = i % 64 ↔ j = i := by omega
      simp only [hif]
    · rw [decide_eq_false (by omega), Bool.not_false, Bool.and_true]
  · simp only [HeaderSlab.has, getLsbD_and_not_bit hmd]
    split
    · rw [decide_eq_false (by omega), Bool.not_false, Bool.and_true]
    · have hif : j - 64 = i % 64 ↔ j = i := by omega
      simp only [hif]

/-! ## Addresses of entries -/

/-- The entries of a page lie inside of it. -/
theorem entry_lt (hi : i < poolEntryCount p) : i * poolEntrySize p < pageSize := by
  cases p <;> simp only [poolEntryCount, poolEntrySize, pageSize] at * <;> omega

theorem entryAddress_div (page : Nat) (hi : i < poolEntryCount p) : entryAddress p page i / pageSize = page := by
  have hlt := entry_lt hi
  rw [entryAddress, Nat.mul_comm, Nat.mul_add_div (by decide), Nat.div_eq_of_lt hlt, Nat.add_zero]

theorem entryAddress_mod (page : Nat) (hi : i < poolEntryCount p) :
    entryAddress p page i % pageSize / poolEntrySize p = i := by
  rw [entryAddress, Nat.mul_comm page, Nat.mul_add_mod, Nat.mod_eq_of_lt (entry_lt hi)]
  exact Nat.mul_div_cancel i (by cases p <;> decide)

theorem entryAddress_inj (hi : i < poolEntryCount p) (hj : j < poolEntryCount p)
    (heq : entryAddress p page i = entryAddress p page' j) : page = page' ∧ i = j := by
  constructor
  · rw [← entryAddress_div page hi, heq, entryAddress_div page' hj]
  · rw [← entryAddress_mod page hi, heq, entryAddress_mod page' hj]

/-! ## The allocator of headers -/

/-- The entry at the address is in use. -/
def TakenIn (p : Port) (slabs : List HeaderSlab) (a : Nat) : Prop :=
  ∃ slab ∈ slabs, ∃ i < poolEntryCount p, slab.has i = true ∧ a = entryAddress p slab.page i

theorem takenIn_cons : TakenIn p (slab :: slabs) a ↔
      (∃ i < poolEntryCount p, slab.has i = true ∧ a = entryAddress p slab.page i) ∨
        TakenIn p slabs a := by
  simp only [TakenIn, exists_mem_cons_iff]

namespace PoolHeaders

def Taken (p : Port) (h : PoolHeaders) (a : Nat) : Prop := TakenIn p h.slabs a

/-- Every page of headers is one of its own, and the 32-bit ports know that it is mapped. -/
structure Ok (p : Port) (h : PoolHeaders) : Prop where
  nodup : (h.slabs.map HeaderSlab.page).Nodup
  range : ∀ slab ∈ h.slabs, headerBase p ≤ slab.page ∧ slab.page < headerBase p + headerPages p
  mapped : p ≠ .amd64 → ∀ slab ∈ h.slabs, h.mapped (slab.page - headerBase p) = true

/-- The frame is not in use for headers. -/
def Fresh (p : Port) (h : PoolHeaders) (frame : Option Nat) : Prop :=
  p = .amd64 → ∀ pfn ∈ frame, pfn < 0x100000000 ∧ ∀ slab ∈ h.slabs, slab.page ≠ headerBase p + pfn

theorem takenIn_allocate (hs : mmpAllocateFromPoolEntrySlab p slab = some (slab', i))
    (hw : ∀ other ∈ slabs, other.page ≠ slab.page) :
    ¬ TakenIn p (slab :: slabs) (entryAddress p slab.page i) ∧ ∀ b, TakenIn p (slab' :: slabs) b ↔
        TakenIn p (slab :: slabs) b ∨ b = entryAddress p slab.page i := by
  obtain ⟨hi, hc, hp, hhas⟩ := allocate_spec hs
  constructor
  · rw [takenIn_cons]
    rintro (⟨j, hj, hst, heq⟩ | ⟨other, hme, j, hj, -, heq⟩)
    · obtain ⟨-, rfl⟩ := entryAddress_inj hi hj heq
      rw [hc] at hst
      cases hst
    · exact hw other hme (entryAddress_inj hi hj heq).1.symm
  · intro b
    rw [takenIn_cons, takenIn_cons, hp]
    constructor
    · rintro (⟨j, hj, hst, rfl⟩ | hrs)
      · rw [hhas, Bool.or_eq_true, decide_eq_true_eq] at hst
        rcases hst with hst | rfl
        · exact .inl (.inl ⟨j, hj, hst, rfl⟩)
        · exact .inr rfl
      · exact .inl (.inr hrs)
    · rintro ((⟨j, hj, hst, rfl⟩ | hrs) | rfl)
      · exact .inl ⟨j, hj, by rw [hhas, hst, Bool.true_or], rfl⟩
      · exact .inr hrs
      · exact .inl ⟨i, hi, by rw [hhas, decide_eq_true rfl, Bool.or_true], rfl⟩

theorem takeEntry_spec (hnd : (slabs.map HeaderSlab.page).Nodup)
    (hs : takeEntry p slabs = some (slabs', a)) :
    slabs'.map HeaderSlab.page = slabs.map HeaderSlab.page ∧ ¬ TakenIn p slabs a ∧
      ∀ b, TakenIn p slabs' b ↔ TakenIn p slabs b ∨ b = a := by
  induction slabs generalizing slabs' with
  | nil => cases hs
  | cons slab rest ih =>
    obtain ⟨hnt, hnd⟩ := nodup_cons.1 hnd
    have hw : ∀ other ∈ rest, other.page ≠ slab.page := fun other hme heq =>
      hnt (List.mem_map.2 ⟨other, hme, heq⟩)
    rw [takeEntry] at hs
    split at hs
    · next slab₁ i hi =>
        cases hs
        obtain ⟨-, -, hp, -⟩ := allocate_spec hi
        rw [hp]
        exact ⟨by rw [map_cons, map_cons, hp], takenIn_allocate hi hw⟩
    · obtain ⟨⟨r, b⟩, hr, heq⟩ := Option.map_eq_some_iff.1 hs
      cases heq
      obtain ⟨hpages, hc, htk⟩ := ih hnd hr
      -- an entry of another page has another address
      refine ⟨by rw [map_cons, map_cons, hpages], ?_, fun c => ?_⟩
      · rw [takenIn_cons, not_or]
        refine ⟨?_, hc⟩
        rintro ⟨i, hi, -, rfl⟩
        obtain ⟨other, hme, j, hj, -, heq⟩ := (htk _).2 (.inr rfl)
        have hp := (entryAddress_inj hi hj heq).1
        exact hnt (hpages ▸ List.mem_map.2 ⟨other, hme, hp.symm⟩)
      · rw [takenIn_cons, takenIn_cons, htk, or_assoc]

/-- A new page of headers is one of its own. -/
theorem allocateSlab_spec (hok : h.Ok p) (hfs : h.Fresh p frame)
    (hs : h.miAllocatePoolHeaderSlab p frame = some (h', page)) :
    h'.slabs = h.slabs ∧ (∀ slab ∈ h.slabs, slab.page ≠ page) ∧
      (headerBase p ≤ page ∧ page < headerBase p + headerPages p) ∧
      (p ≠ .amd64 → h'.mapped (page - headerBase p) = true) ∧
      ∀ i, h.mapped i = true → h'.mapped i = true := by
  obtain ⟨pfn, hfr, hs⟩ := Option.bind_eq_some_iff.1 hs
  -- the ports with an area of their own for headers
  have ha : ∀ base, ((List.range poolHdrMaxPfnsMapped).find? fun i => !h.mapped i).map
      (fun i => ({ h with mapped := update h.mapped i true }, base + i)) = some (h', page) →
      h'.slabs = h.slabs ∧ h.mapped (page - base) = false ∧
        (base ≤ page ∧ page < base + poolHdrMaxPfnsMapped) ∧ h'.mapped (page - base) = true ∧
        ∀ i, h.mapped i = true → h'.mapped i = true := by
    intro base hs
    obtain ⟨i, hi, heq⟩ := Option.map_eq_some_iff.1 hs
    cases heq
    have hlt : i < poolHdrMaxPfnsMapped := mem_range.1 (mem_of_find?_eq_some hi)
    rw [Nat.add_sub_cancel_left]
    refine ⟨rfl, by simpa using List.find?_some hi, ⟨by omega, by omega⟩, update_self _ _ _,
      fun j hj => ?_⟩
    show update h.mapped i true j = true
    rw [update_apply]
    split
    · rfl
    · exact hj
  cases p with
  | amd64 =>
    cases hs
    obtain ⟨hlt, hw⟩ := hfs rfl pfn hfr
    exact ⟨rfl, hw, ⟨by omega, by simp only [headerPages]; omega⟩, fun hne => absurd rfl hne,
      fun _ hi => hi⟩
  | i386 =>
    obtain ⟨hsl, hc, hrn, hst, hmn⟩ := ha _ hs
    refine ⟨hsl, fun slab hme heq => ?_, hrn, fun _ => hst, hmn⟩
    rw [← heq, hok.mapped (by decide) slab hme] at hc
    cases hc
  | arm =>
    obtain ⟨hsl, hc, hrn, hst, hmn⟩ := ha _ hs
    refine ⟨hsl, fun slab hme heq => ?_, hrn, fun _ => hst, hmn⟩
    rw [← heq, hok.mapped (by decide) slab hme] at hc
    cases hc

/-- **`MiCreatePoolEntry`** returns an entry that was not in use. -/
theorem create_spec (hok : h.Ok p) (hfr : h.Fresh p frame)
    (hs : h.miCreatePoolEntry p frame = some (h', a)) :
    h'.Ok p ∧ ¬ h.Taken p a ∧ ∀ b, h'.Taken p b ↔ h.Taken p b ∨ b = a := by
  rw [miCreatePoolEntry] at hs
  split at hs
  · next slabs c hc =>
      cases hs
      obtain ⟨hpages, hcl, htk⟩ := takeEntry_spec hok.nodup hc
      have hme : ∀ slab ∈ slabs, ∃ old ∈ h.slabs, old.page = slab.page := fun slab hsl =>
        List.mem_map.1 (hpages ▸ List.mem_map.2 ⟨slab, hsl, rfl⟩)
      refine ⟨⟨hpages ▸ hok.nodup, fun slab hsl => ?_, fun hne slab hsl => ?_⟩, hcl, htk⟩
      · obtain ⟨old, hold, heq⟩ := hme slab hsl
        rw [← heq]
        exact hok.range old hold
      · obtain ⟨old, hold, heq⟩ := hme slab hsl
        rw [← heq]
        exact hok.mapped hne old hold
  · obtain ⟨⟨h₁, page⟩, hsl, hs⟩ := Option.bind_eq_some_iff.1 hs
    obtain ⟨⟨slab, i⟩, hi, heq⟩ := Option.map_eq_some_iff.1 hs
    cases heq
    obtain ⟨hss, hw, hrn, hmp, hmn⟩ := allocateSlab_spec hok hfr hsl
    obtain ⟨hcl, htk⟩ := takenIn_allocate hi hw
    obtain ⟨-, -, hp, -⟩ := allocate_spec hi
    -- the new page has nothing in use
    have he : ∀ b, TakenIn p (⟨page, 0, 0⟩ :: h.slabs) b ↔ TakenIn p h.slabs b := by
      intro b
      rw [takenIn_cons]
      refine or_iff_right ?_
      rintro ⟨i, -, hst, -⟩
      simp [HeaderSlab.has] at hst
    refine ⟨⟨?_, ?_, ?_⟩, fun htk => hcl ((he _).2 htk), fun b => ?_⟩
    · show ((slab :: h₁.slabs).map HeaderSlab.page).Nodup
      rw [hss, map_cons, hp]
      refine nodup_cons.2 ⟨fun hme => ?_, hok.nodup⟩
      obtain ⟨old, hold, heq⟩ := List.mem_map.1 hme
      exact hw old hold heq
    · intro other hme
      rcases mem_cons.1 hme with rfl | hme
      · rw [hp]
        exact hrn
      · exact hok.range other (hss ▸ hme)
    · intro hne other hme
      rcases mem_cons.1 hme with rfl | hme
      · rw [hp]
        exact hmp hne
      · exact hmn _ (hok.mapped hne other (hss ▸ hme))
    · show TakenIn p (slab :: h₁.slabs) b ↔ _
      rw [hss, htk, he]
      exact Iff.rfl

theorem clearEntry_page : (clearEntry slab i).page = slab.page := by
  rw [clearEntry]
  split <;> rfl

theorem eq_of_page (hok : h.Ok p) (hme : slab ∈ h.slabs) (hme' : slab' ∈ h.slabs)
    (heq : slab.page = slab'.page) : slab = slab' :=
  inj_on_of_nodup_map hok.nodup hme hme' heq

theorem freeSlab_slabs : (h.miFreePoolHeaderSlab p page).slabs = h.slabs := by
  cases p <;> rfl

theorem freeSlab_mapped (hp : p ≠ .amd64) : (h.miFreePoolHeaderSlab p page).mapped =
      update h.mapped (page - headerBase p) false := by
  cases p with
  | amd64 => exact absurd rfl hp
  | i386 => rfl
  | arm => rfl

/-- **`MiDeletePoolEntry`** gives an entry back, and a page of headers with its last one. -/
theorem delete_spec (hok : h.Ok p) (ht : h.Taken p a) :
    (h.miDeletePoolEntry p a).Ok p ∧ ∀ b, (h.miDeletePoolEntry p a).Taken p b ↔ h.Taken p b ∧ b ≠ a := by
  obtain ⟨slab, hme, i, hi, -, rfl⟩ := ht
  have hi128 : i < 128 := by
    have := poolEntryCount_le p
    omega
  have hfn : (h.slabs.find? fun other => other.page == slab.page) = some slab := by
    obtain ⟨other, hother⟩ := Option.isSome_iff_exists.1
      (List.find?_isSome.2 ⟨slab, hme, beq_self_eq_true slab.page⟩ :
        (h.slabs.find? fun other => other.page == slab.page).isSome = true)
    have hp : other.page = slab.page := by simpa using List.find?_some hother
    rw [hother, eq_of_page hok (mem_of_find?_eq_some hother) hme hp]
  -- what another address says about the page
  have hc : ∀ other ∈ h.slabs, ∀ j < poolEntryCount p, other.has j = true →
      entryAddress p other.page j ≠ entryAddress p slab.page i →
      other.page ≠ slab.page ∨ other = slab ∧ (clearEntry slab i).has j = true := by
    intro other hother j hj hst hne
    by_cases hp : other.page = slab.page
    · obtain rfl := eq_of_page hok hother hme hp
      refine .inr ⟨rfl, ?_⟩
      rw [has_clearEntry hi128, hst, decide_eq_false fun hji => hne (by rw [hji])]
      rfl
    · exact .inl hp
  rw [miDeletePoolEntry, entryAddress_div slab.page hi, entryAddress_mod slab.page hi, hfn]
  simp only
  split
  · next hz =>
      have hnn : ∀ j, (clearEntry slab i).has j = false := by
        intro j
        rw [HeaderSlab.has, hz.1, hz.2]
        simp
      have hsl : ∀ other, other ∈ ({ h with slabs := h.slabs.filter fun other =>
            other.page != slab.page }.miFreePoolHeaderSlab p slab.page).slabs ↔
          other ∈ h.slabs ∧ other.page ≠ slab.page := by
        intro other
        rw [freeSlab_slabs]
        simp
      refine ⟨⟨?_, fun other hother => hok.range other ((hsl other).1 hother).1,
        fun hne other hother => ?_⟩, fun b => ?_⟩
      · rw [freeSlab_slabs]
        exact hok.nodup.sublist (filter_sublist.map _)
      · obtain ⟨hold, hp⟩ := (hsl other).1 hother
        have hrn := (hok.range other hold).1
        have hrn' := (hok.range slab hme).1
        have hmp := hok.mapped hne other hold
        have hdf : other.page - headerBase p ≠ slab.page - headerBase p := by omega
        rw [freeSlab_mapped hne, update_of_ne hdf, hmp]
      · constructor
        · rintro ⟨other, hother, j, hj, hst, rfl⟩
          obtain ⟨hold, hp⟩ := (hsl other).1 hother
          exact ⟨⟨other, hold, j, hj, hst, rfl⟩, fun heq => hp (entryAddress_inj hj hi heq).1⟩
        · rintro ⟨⟨other, hold, j, hj, hst, rfl⟩, hne⟩
          refine ⟨other, (hsl other).2 ⟨hold, ?_⟩, j, hj, hst, rfl⟩
          rcases hc other hold j hj hst hne with hp | ⟨-, hb⟩
          · exact hp
          · rw [hnn] at hb
            cases hb
  · have hpages : (h.slabs.map fun other => if other.page = slab.page then clearEntry slab i
        else other).map HeaderSlab.page = h.slabs.map HeaderSlab.page := by
      rw [List.map_map]
      refine map_congr_left fun other _ => ?_
      simp only [comp_apply]
      split
      · next hp => rw [clearEntry_page, hp]
      · rfl
    have hold : ∀ other ∈ (h.slabs.map fun other => if other.page = slab.page then clearEntry slab i
        else other), ∃ old ∈ h.slabs, old.page = other.page := fun other hother =>
      List.mem_map.1 (hpages ▸ List.mem_map.2 ⟨other, hother, rfl⟩)
    refine ⟨⟨hpages ▸ hok.nodup, fun other hother => ?_, fun hne other hother => ?_⟩, fun b => ?_⟩
    · obtain ⟨old, hme, heq⟩ := hold other hother
      rw [← heq]
      exact hok.range old hme
    · obtain ⟨old, hme, heq⟩ := hold other hother
      rw [← heq]
      exact hok.mapped hne old hme
    · constructor
      · rintro ⟨other, hother, j, hj, hst, rfl⟩
        obtain ⟨old, hme', rfl⟩ := List.mem_map.1 hother
        by_cases hp : old.page = slab.page
        · rw [if_pos hp, has_clearEntry hi128, Bool.and_eq_true] at hst
          rw [if_pos hp, clearEntry_page]
          refine ⟨⟨slab, hme, j, hj, hst.1, rfl⟩, fun heq => ?_⟩
          have hji := (entryAddress_inj hj hi heq).2
          simp [hji] at hst
        · rw [if_neg hp] at hst ⊢
          exact ⟨⟨old, hme', j, hj, hst, rfl⟩, fun heq => hp (entryAddress_inj hj hi heq).1⟩
      · rintro ⟨⟨other, hother, j, hj, hst, rfl⟩, hne⟩
        rcases hc other hother j hj hst hne with hp | ⟨rfl, hb⟩
        · exact ⟨other, List.mem_map.2 ⟨other, hother, if_neg hp⟩, j, hj, hst, rfl⟩
        · exact ⟨clearEntry other i, List.mem_map.2 ⟨other, hother, if_pos rfl⟩, j, hj, hb,
            by rw [clearEntry_page]⟩

end PoolHeaders

/-! ## Handles in page table entries -/

namespace Port

theorem codec_amd64 (ha : a < 2 ^ 64) (hbs : 2 ^ 64 - 2 ^ 47 ≤ a) (hmd : a % 8 = 0) :
    Port.amd64.mmIsPoolHeaderPte (Port.amd64.mmBuildPoolHeaderPte (.ofNat 64 a)) = true ∧
      Port.amd64.mmGetPoolHeaderAddressPte (Port.amd64.mmBuildPoolHeaderPte (.ofNat 64 a)) =
        .ofNat 64 a := by
  have htt : (BitVec.ofNat 64 a).toNat = a := Nat.mod_eq_of_lt ha
  have hal : BitVec.ofNat 64 a &&& 7 = 0 := by
    apply BitVec.eq_of_toNat_eq
    rw [BitVec.toNat_and, htt, show (7 : BitVec 64).toNat = 2 ^ 3 - 1 by decide,
      Nat.and_two_pow_sub_one_eq_mod]
    exact hmd
  have hkr : Amd64.kernelSpaceBase ≤ BitVec.ofNat 64 a := by
    rw [BitVec.le_def, htt]
    exact hbs
  obtain ⟨hb, hh⟩ := Amd64.Encoding.poolHeader_told hal hkr
  refine ⟨?_, Amd64.Encoding.poolHeader_readsBack hal hkr⟩
  simp only [mmIsPoolHeaderPte, mmBuildPoolHeaderPte, Amd64.mmIsPoolHeaderPte, hb, hh]
  rfl

theorem codec_i386 (ha : a < 2 ^ 32) (hb : 2 ^ 31 ≤ a) (hod : a % 2 = 0) (hmd : a % 4096 < 2048) :
    Port.i386.mmIsPoolHeaderPte (Port.i386.mmBuildPoolHeaderPte (.ofNat 64 a)) = true ∧
      Port.i386.mmGetPoolHeaderAddressPte (Port.i386.mmBuildPoolHeaderPte (.ofNat 64 a)) =
        .ofNat 64 a := by
  have hof : (BitVec.ofNat 64 a - 0x80000000#64).toNat = a - 2 ^ 31 := by
    have hle : 0x80000000#64 ≤ BitVec.ofNat 64 a := by
      rw [BitVec.le_def, BitVec.toNat_ofNat a, Nat.mod_eq_of_lt (by omega)]
      exact hb
    rw [BitVec.toNat_sub_of_le hle, BitVec.toNat_ofNat, Nat.mod_eq_of_lt (by omega)]
    rfl
  have hp : (BitVec.ofNat 64 a - 0x80000000#64).getLsbD 0 = false := by
    rw [← BitVec.testBit_toNat, hof, Nat.testBit_zero, decide_eq_false_iff_not]
    omega
  have hfr : (BitVec.ofNat 64 a - 0x80000000#64).getLsbD 11 = false := by
    rw [← BitVec.testBit_toNat, hof, Nat.testBit_eq_decide_div_mod_eq, decide_eq_false_iff_not]
    omega
  have hkn : Port.i386.mmIsPoolHeaderPte (Port.i386.mmBuildPoolHeaderPte (.ofNat 64 a)) = true := by
    have hst : (Port.i386.mmBuildPoolHeaderPte (.ofNat 64 a)) &&& 1#64 <<< 11 ≠ 0 :=
      (and_bit_ne_zero (by decide)).2 (by
        rw [mmBuildPoolHeaderPte, getLsbD_or_bit (by decide)]
        simp)
    have hc : ¬ (Port.i386.mmBuildPoolHeaderPte (.ofNat 64 a)) &&& 1#64 <<< 0 ≠ 0 := by
      rw [and_bit_ne_zero (by decide), mmBuildPoolHeaderPte, getLsbD_or_bit (by decide), hp]
      decide
    rw [mmIsPoolHeaderPte, bne_iff_ne.2 hst, Bool.and_true, Bool.not_eq_true', ← Bool.not_eq_true,
      bne_iff_ne]
    exact hc
  refine ⟨hkn, ?_⟩
  rw [mmGetPoolHeaderAddressPte, if_pos hkn, mmBuildPoolHeaderPte, or_bit_and_not_bit (by decide) hfr,
    BitVec.sub_add_cancel]

theorem codec_arm (ha : a < 2 ^ 32) (hb : 2 ^ 31 ≤ a) (hmd : a % 8 = 0) :
    Port.arm.mmIsPoolHeaderPte (Port.arm.mmBuildPoolHeaderPte (.ofNat 64 a)) = true ∧
      Port.arm.mmGetPoolHeaderAddressPte (Port.arm.mmBuildPoolHeaderPte (.ofNat 64 a)) =
        .ofNat 64 a := by
  have hlw : ∀ j < 3, (BitVec.ofNat 64 a).getLsbD j = false := by
    intro j hj
    rw [BitVec.getLsbD_ofNat, Nat.testBit_eq_decide_div_mod_eq]
    have : a / 2 ^ j % 2 ≠ 1 := by
      interval_cases j <;> omega
    simp [this]
  have hp : (BitVec.ofNat 64 a).getLsbD 31 = true := by
    rw [BitVec.getLsbD_ofNat, Nat.testBit_eq_decide_div_mod_eq]
    simp
    omega
  have hh : ∀ j, 32 ≤ j → (BitVec.ofNat 64 a).getLsbD j = false := by
    intro j hj
    rw [BitVec.getLsbD_ofNat, Nat.testBit_lt_two_pow (ha.trans_le (Nat.pow_le_pow_right (by decide) hj)),
      Bool.and_false]
  have hms : ∀ j, (0xFFFFFFF#64).getLsbD j = decide (j < 28) := by
    intro j
    rw [show 0xFFFFFFF#64 = BitVec.ofNat 64 (2 ^ 28 - 1) by decide, getLsbD_lowBits (by decide)]
  have hw : ∀ j, (Port.arm.mmBuildPoolHeaderPte (.ofNat 64 a)).getLsbD j =
      ((decide (4 ≤ j ∧ j < 32) && (BitVec.ofNat 64 a).getLsbD (j - 1)) || decide (j = 2)) := by
    intro j
    rw [mmBuildPoolHeaderPte, getLsbD_or_bit (by decide), BitVec.getLsbD_shiftLeft,
      BitVec.getLsbD_and, BitVec.getLsbD_ushiftRight, hms]
    by_cases hj : 4 ≤ j ∧ j < 32
    · have h1 : 3 + (j - 4) = j - 1 := by omega
      have h2 : j - 4 < 28 := by omega
      have h3 : ¬ j < 4 := by omega
      have h4 : j < 64 := by omega
      simp [hj, h1, h2, h3, h4]
    · rw [decide_eq_false hj, Bool.false_and]
      have h1 : j < 4 ∨ ¬ j - 4 < 28 := by omega
      rcases h1 with h1 | h1 <;> simp [h1]
  constructor
  · have hst : (Port.arm.mmBuildPoolHeaderPte (.ofNat 64 a)) &&& 1#64 <<< 2 ≠ 0 :=
      (and_bit_ne_zero (by decide)).2 (by simp [hw])
    have hc : (Port.arm.mmBuildPoolHeaderPte (.ofNat 64 a)) &&& 3#64 = 0 := by
      refine BitVec.eq_of_getLsbD_eq fun j hj => ?_
      rw [BitVec.getLsbD_and, hw, show 3#64 = BitVec.ofNat 64 (2 ^ 2 - 1) by decide,
        getLsbD_lowBits (by decide)]
      by_cases h2 : j < 2
      · have h1 : ¬ (4 ≤ j ∧ j < 32) := by omega
        simp [h1, h2, show j ≠ 2 by omega]
      · simp [h2]
    rw [mmIsPoolHeaderPte, bne_iff_ne.2 hst, hc]
    decide
  · refine BitVec.eq_of_getLsbD_eq fun j hj => ?_
    rw [mmGetPoolHeaderAddressPte, getLsbD_or_bit (by decide), BitVec.getLsbD_shiftLeft,
      BitVec.getLsbD_and, BitVec.getLsbD_ushiftRight, hms, hw]
    rcases Nat.lt_trichotomy j 31 with hlt | rfl | hgt
    · by_cases h3 : j < 3
      · simp [hlw j h3, h3, show j ≠ 31 by omega]
      · have h1 : 4 + (j - 3) - 1 = j := by omega
        have h2 : 4 ≤ 4 + (j - 3) ∧ 4 + (j - 3) < 32 := by omega
        simp [h3, h1, h2, hj, show j - 3 < 28 by omega, show j ≠ 31 by omega,
          show 4 + (j - 3) ≠ 2 by omega]
    · rw [hp]
      simp
    · simp [hh j hgt, show ¬ j - 3 < 28 by omega, show j ≠ 31 by omega]

end Port

/-- **The handle of an entry in use is read back** from the page table entry built for it. -/
theorem handle_codec (hok : h.Ok p) (ht : h.Taken p a) :
    p.mmIsPoolHeaderPte (p.mmBuildPoolHeaderPte (.ofNat 64 a)) = true ∧
      (p.mmGetPoolHeaderAddressPte (p.mmBuildPoolHeaderPte (.ofNat 64 a))).toNat = a := by
  obtain ⟨slab, hme, i, hi, -, rfl⟩ := ht
  obtain ⟨hlo, hh⟩ := hok.range slab hme
  have hlt := entry_lt hi
  have hw : entryAddress p slab.page i < 2 ^ 64 := by
    rw [entryAddress]
    cases p <;> simp only [headerBase, headerPages, poolHdrMaxPfnsMapped, pageSize] at * <;> omega
  have hc : p.mmIsPoolHeaderPte (p.mmBuildPoolHeaderPte (.ofNat 64 (entryAddress p slab.page i))) =
      true ∧ p.mmGetPoolHeaderAddressPte (p.mmBuildPoolHeaderPte
        (.ofNat 64 (entryAddress p slab.page i))) = .ofNat 64 (entryAddress p slab.page i) := by
    cases p with
    | amd64 =>
      simp only [headerBase, entryAddress, poolEntrySize, pageSize] at *
      exact Port.codec_amd64 hw (by omega) (by omega)
    | i386 =>
      simp only [headerBase, headerPages, poolHdrMaxPfnsMapped, entryAddress, poolEntrySize,
        poolEntryCount, pageSize] at *
      exact Port.codec_i386 (by omega) (by omega) (by omega) (by omega)
    | arm =>
      simp only [headerBase, headerPages, poolHdrMaxPfnsMapped, entryAddress, poolEntrySize,
        poolEntryCount, pageSize] at *
      exact Port.codec_arm (by omega) (by omega) (by omega)
  refine ⟨hc.1, ?_⟩
  rw [hc.2]
  exact Nat.mod_eq_of_lt hw

end Boron.Mm
