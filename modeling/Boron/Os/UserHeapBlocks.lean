import Boron.Os.UserHeap

/-! # The blocks of a user heap

`Linked t h bs` says that the headers in memory show the blocks `bs`: they are the block list, in
this order, and those that are free are the free list. Each operation on the two lists has one rule,
for a block in the middle of the others. -/

namespace Boron.Os

open Function List

open Rtl (Target)

/-- A block, as its header shows it. `mapped` means something only if the block is not free. -/
structure HeapBlock where
  addr : Nat
  size : Nat
  free : Bool
  arenaStart : Bool
  mapped : Bool
  deriving DecidableEq

namespace HeapBlock

variable (t : Target)

/-- Its entry on the free list. -/
def entry (b : HeapBlock) : Nat := b.addr + freeListEntry t

/-- The address behind its last byte. -/
def past (b : HeapBlock) : Nat := b.addr + headerSize t + b.size

end HeapBlock

section

variable (t : Target)

/-- The entries of the free blocks. -/
def freeEntries (bs : List HeapBlock) : List Nat := (bs.filter (·.free)).map (·.entry t)

/-- The header shows the block. -/
structure OsHeap.Holds (h : OsHeap) (b : HeapBlock) : Prop where
  size : h.blockSize b.addr = b.size
  free : h.isFree b.addr = b.free
  arenaStart : h.isArenaStart b.addr = b.arenaStart
  mapped : b.free = false → h.wasMapped t b.addr = b.mapped

/-- The headers show the blocks, on both lists. -/
structure Linked (h : OsHeap) (bs : List HeapBlock) : Prop where
  ring : h.block.Ring h.blockList (bs.map (·.addr))
  freeRing : ∃ l, h.free.Ring h.freeList l ∧ l.Perm (freeEntries t bs)
  holds : ∀ b ∈ bs, h.Holds t b
  even : 2 ∣ h.freeList
  placed : ∀ a ∈ bs.map (·.addr), 2 ∣ a ∧ a + freeListEntry t ≠ h.freeList

end

variable {t : Target} {h : OsHeap} {b c d : HeapBlock} {bs xs ys : List HeapBlock}

theorem even_freeListEntry (t : Target) : 2 ∣ freeListEntry t := ⟨t.wordBytes, rfl⟩

theorem entry_sub (t : Target) (b : HeapBlock) : b.entry t - freeListEntry t = b.addr :=
  Nat.add_sub_cancel _ _

theorem mem_middle {α : Type} {a x : α} {l m : List α} : x ∈ l ++ a :: m ↔ x = a ∨ x ∈ l ++ m := by
  rw [perm_middle.mem_iff, mem_cons]

theorem freeEntries_perm (hp : xs.Perm ys) : (freeEntries t xs).Perm (freeEntries t ys) :=
  (hp.filter _).map _

theorem freeEntries_free (hb : b.free = true) :
    (freeEntries t (xs ++ b :: ys)).Perm (b.entry t :: freeEntries t (xs ++ ys)) := by
  refine (freeEntries_perm perm_middle).trans (Perm.of_eq ?_)
  rw [freeEntries, filter_cons_of_pos hb]
  rfl

theorem freeEntries_used (hb : b.free = false) :
    (freeEntries t (xs ++ b :: ys)).Perm (freeEntries t (xs ++ ys)) := by
  refine (freeEntries_perm perm_middle).trans (Perm.of_eq ?_)
  rw [freeEntries, filter_cons_of_neg (by simp [hb])]
  rfl

theorem subset_middle {a : Nat} (ha : a ∈ (xs ++ ys).map (·.addr)) :
    a ∈ (xs ++ b :: ys).map (·.addr) := by
  obtain ⟨c, hc, rfl⟩ := mem_map.1 ha
  exact mem_map_of_mem (mem_middle.2 (.inr hc))

theorem mem_behind : c ∈ xs ++ b :: d :: ys ↔ c = d ∨ c ∈ xs ++ b :: ys := by
  simp only [mem_append, mem_cons]
  tauto

theorem addrs_middle (xs ys : List HeapBlock) {b' : HeapBlock} (hb : b'.addr = b.addr) :
    (xs ++ b' :: ys).map (·.addr) = (xs ++ b :: ys).map (·.addr) := by
  simp [hb]

theorem mem_freeEntries {e : Nat} : e ∈ freeEntries t bs ↔ ∃ b ∈ bs, b.free = true ∧ b.entry t = e := by
  simp [freeEntries, and_assoc]

/-- What a header shows depends on its own fields only, and on the link if the block is in use. -/
theorem OsHeap.Holds.congr {h' : OsHeap} (hold : h.Holds t b)
    (hsize : h'.blockSize b.addr = h.blockSize b.addr) (hfr : h'.isFree b.addr = h.isFree b.addr)
    (hst : h'.isArenaStart b.addr = h.isArenaStart b.addr)
    (hnext : b.free = false → h'.free.next (b.entry t) = h.free.next (b.entry t)) :
    h'.Holds t b where
  size := hsize.trans hold.size
  free := hfr.trans hold.free
  arenaStart := hst.trans hold.arenaStart
  mapped hb := (congrArg (fun w => decide (w % 2 = 1)) (hnext hb)).trans (hold.mapped hb)

/-- The walk along a chain of entries, which may take more turns than there are. -/
theorem firstFit_eq {l : List Nat} {p size fuel : Nat}
    (hsg : Seg h.free.next h.free.prev p l h.freeList) (hh : h.freeList ∉ l) :
    h.firstFit t size fuel (l.headD h.freeList)
        = some (l.find? fun e => size ≤ h.blockSize (e - freeListEntry t)) ∨
      fuel ≤ l.length ∧ h.firstFit t size fuel (l.headD h.freeList) = none := by
  induction l generalizing p fuel with
  | nil =>
    cases fuel with
    | zero => exact .inr ⟨Nat.le_refl _, rfl⟩
    | succ k => exact .inl (by simp [OsHeap.firstFit])
  | cons e l ih =>
    cases fuel with
    | zero => exact .inr ⟨Nat.zero_le _, rfl⟩
    | succ k =>
      obtain ⟨-, hnext, hrs⟩ := hsg
      have hne : e ≠ h.freeList := fun heq => hh (by simp [heq])
      rw [headD_cons, OsHeap.firstFit, if_neg hne, List.find?_cons]
      by_cases hsm : h.blockSize (e - freeListEntry t) < size
      · rw [if_pos hsm, hnext, decide_eq_false (Nat.not_le.2 hsm)]
        refine (ih hrs fun hme => hh (mem_cons_of_mem _ hme)).imp id ?_
        rintro ⟨hle, hnn⟩
        exact ⟨by simpa using hle, hnn⟩
      · rw [if_neg hsm, decide_eq_true (Nat.le_of_not_lt hsm)]
        exact .inl rfl

namespace Linked

theorem mem (_ : Linked t h (xs ++ b :: ys)) : b ∈ xs ++ b :: ys := by simp

theorem even_addr (hl : Linked t h bs) (hb : b ∈ bs) : 2 ∣ b.addr :=
  (hl.placed _ (mem_map_of_mem hb)).1

theorem entry_ne_head (hl : Linked t h bs) (hb : b ∈ bs) : b.entry t ≠ h.freeList :=
  (hl.placed _ (mem_map_of_mem hb)).2

/-- No other block has the address of a block. -/
theorem addr_ne (hl : Linked t h (xs ++ b :: ys)) (hc : c ∈ xs ++ ys) : c.addr ≠ b.addr := by
  have hnd := hl.ring.nodup
  rw [(perm_middle.map _).nodup_iff, map_cons, nodup_cons] at hnd
  exact fun heq => hnd.1 (heq ▸ mem_map_of_mem hc)

theorem entry_ne (hl : Linked t h (xs ++ b :: ys)) (hc : c ∈ xs ++ ys) : c.entry t ≠ b.entry t :=
  fun heq => hl.addr_ne hc (Nat.add_right_cancel heq)

theorem entry_not_mem (hl : Linked t h bs) (hb : b ∈ bs) (hfr : b.free = false) {l : List Nat}
    (hp : l.Perm (freeEntries t bs)) : b.entry t ∉ h.freeList :: l := by
  rw [mem_cons, not_or]
  refine ⟨hl.entry_ne_head hb, fun hme => ?_⟩
  obtain ⟨c, hc, hcf, heq⟩ := mem_freeEntries.1 (hp.mem_iff.1 hme)
  obtain ⟨xs, ys, rfl⟩ := append_of_mem hb
  rcases mem_middle.1 hc with rfl | hc
  · exact absurd hcf (by simp [hfr])
  · exact hl.entry_ne hc heq

/-- The word that holds `WasMapped` is a link as long as the block is free, and links are even. -/
theorem wasMapped_free (hl : Linked t h bs) (hb : b ∈ bs) (hfr : b.free = true) :
    h.wasMapped t b.addr = false := by
  obtain ⟨l, hr, hp⟩ := hl.freeRing
  have hme : b.entry t ∈ l := hp.mem_iff.2 (mem_freeEntries.2 ⟨b, hb, hfr, rfl⟩)
  have he : 2 ∣ h.free.next (b.entry t) := by
    rcases mem_cons.1 (hr.links_mem (mem_cons_of_mem _ hme)).1 with heq | hnext
    · exact heq ▸ hl.even
    · obtain ⟨c, hc, -, heq⟩ := mem_freeEntries.1 (hp.mem_iff.1 hnext)
      exact heq ▸ Nat.dvd_add (hl.even_addr hc) (even_freeListEntry t)
  have hod : ¬ h.free.next (b.entry t) % 2 = 1 := by omega
  exact decide_eq_false hod

/-! ## Taking and releasing -/

theorem takeBlock (hl : Linked t h (xs ++ b :: ys)) (hb : b.free = true) (m : Bool) :
    Linked t (h.takeBlock t b.addr m) (xs ++ { b with free := false, mapped := m } :: ys) := by
  obtain ⟨l, hr, hp⟩ := hl.freeRing
  have hcn : l.Perm (b.entry t :: freeEntries t (xs ++ ys)) := hp.trans (freeEntries_free hb)
  have hme : b.entry t ∈ l := hcn.mem_iff.2 mem_cons_self
  have hot : b.entry t ∉ h.freeList :: l.erase (b.entry t) := by
    rw [mem_cons, not_or]
    exact ⟨hl.entry_ne_head hl.mem, hr.nodup.not_mem_erase⟩
  have ha : (xs ++ { b with free := false, mapped := m } :: ys).map (·.addr)
      = (xs ++ b :: ys).map (·.addr) := addrs_middle xs ys rfl
  refine ⟨ha ▸ hl.ring, ⟨l.erase (b.entry t), ?_, ?_⟩, fun c hc => ?_, hl.even, ha ▸ hl.placed⟩
  · refine (hr.remove hme).congr fun e he => ⟨update_of_ne ?_ _ _, rfl⟩
    rintro rfl
    exact hot he
  · exact (cons_perm_iff_perm_erase.1 hcn.symm).2.symm.trans (freeEntries_used rfl).symm
  · rcases mem_middle.1 hc with rfl | hc
    · have hold := hl.holds b hl.mem
      refine ⟨hold.size, update_self .., hold.arenaStart, fun _ => ?_⟩
      simp only [OsHeap.wasMapped, OsHeap.takeBlock, OsHeap.setWasMapped, update_self]
      cases m <;> simp only [Bool.toNat_true, Bool.toNat_false, decide_eq_true_eq,
        decide_eq_false_iff_not] <;> omega
    · have hcm : c ∈ xs ++ b :: ys := mem_middle.2 (.inr hc)
      refine (hl.holds c hcm).congr rfl (update_of_ne (hl.addr_ne hc) _ _) rfl fun hcf => ?_
      exact (update_of_ne (hl.entry_ne hc) _ _).trans (hr.next_remove hme (hl.entry_not_mem hcm hcf hp))

theorem releaseBlock (hl : Linked t h (xs ++ b :: ys)) (hb : b.free = false) :
    Linked t (h.releaseBlock t b.addr) (xs ++ { b with free := true } :: ys) := by
  obtain ⟨l, hr, hp⟩ := hl.freeRing
  have hot := hl.entry_not_mem hl.mem hb hp
  have hrs : l.Perm (freeEntries t (xs ++ ys)) := hp.trans (freeEntries_used hb)
  have ha : (xs ++ { b with free := true } :: ys).map (·.addr)
      = (xs ++ b :: ys).map (·.addr) := addrs_middle xs ys rfl
  refine ⟨ha ▸ hl.ring, ⟨l ++ [b.entry t], hr.insertTail hot, ?_⟩, fun c hc => ?_,
    hl.even, ha ▸ hl.placed⟩
  · have hw : (freeEntries t (xs ++ { b with free := true } :: ys)).Perm
        (b.entry t :: freeEntries t (xs ++ ys)) := freeEntries_free rfl
    exact (perm_append_singleton _ _).trans ((hrs.cons _).trans hw.symm)
  · rcases mem_middle.1 hc with rfl | hc
    · have hold := hl.holds b hl.mem
      exact ⟨hold.size, update_self .., hold.arenaStart, nofun⟩
    · have hcm : c ∈ xs ++ b :: ys := mem_middle.2 (.inr hc)
      refine (hl.holds c hcm).congr rfl (update_of_ne (hl.addr_ne hc) _ _) rfl fun hcf => ?_
      exact hr.next_insertTail (hl.entry_ne_head hl.mem) (hl.entry_not_mem hcm hcf hp) (hl.entry_ne hc)

/-! ## Removing -/

theorem ring_remove (hl : Linked t h (xs ++ b :: ys)) :
    (h.block.remove b.addr).Ring h.blockList ((xs ++ ys).map (·.addr)) := by
  have hme : b.addr ∈ (xs ++ b :: ys).map (·.addr) := mem_map_of_mem hl.mem
  have hrm := hl.ring.remove hme
  have hot : b.addr ∉ xs.map (·.addr) := by
    rintro hin
    obtain ⟨c, hc, heq⟩ := mem_map.1 hin
    exact hl.addr_ne (mem_append_left _ hc) heq
  rwa [map_append, map_cons, erase_append_right _ hot, erase_cons_head, ← map_append] at hrm

theorem dropFree (hl : Linked t h (xs ++ b :: ys)) (hb : b.free = true) :
    Linked t { h with block := h.block.remove b.addr, free := h.free.remove (b.entry t) }
      (xs ++ ys) := by
  obtain ⟨l, hr, hp⟩ := hl.freeRing
  have hcn : l.Perm (b.entry t :: freeEntries t (xs ++ ys)) := hp.trans (freeEntries_free hb)
  have hme : b.entry t ∈ l := hcn.mem_iff.2 mem_cons_self
  refine ⟨hl.ring_remove, ⟨l.erase (b.entry t), hr.remove hme,
    (cons_perm_iff_perm_erase.1 hcn.symm).2.symm⟩, fun c hc => ?_, hl.even,
    fun a ha => hl.placed a (subset_middle ha)⟩
  have hcm : c ∈ xs ++ b :: ys := mem_middle.2 (.inr hc)
  exact (hl.holds c hcm).congr rfl rfl rfl fun hcf =>
    hr.next_remove hme (hl.entry_not_mem hcm hcf hp)

theorem dropUsed (hl : Linked t h (xs ++ b :: ys)) (hb : b.free = false) :
    Linked t { h with block := h.block.remove b.addr } (xs ++ ys) := by
  obtain ⟨l, hr, hp⟩ := hl.freeRing
  refine ⟨hl.ring_remove, ⟨l, hr, hp.trans (freeEntries_used hb)⟩, fun c hc => ?_, hl.even,
    fun a ha => hl.placed a (subset_middle ha)⟩
  exact (hl.holds c (mem_middle.2 (.inr hc))).congr rfl rfl rfl fun _ => rfl

/-! ## Inserting -/

variable {n : Nat}

theorem setBlockSize (hl : Linked t h (xs ++ b :: ys)) (hn : n < 2 ^ blockSizeBits t) :
    Linked t (h.setBlockSize t b.addr n) (xs ++ { b with size := n } :: ys) := by
  obtain ⟨l, hr, hp⟩ := hl.freeRing
  have ha : (xs ++ { b with size := n } :: ys).map (·.addr)
      = (xs ++ b :: ys).map (·.addr) := addrs_middle xs ys rfl
  refine ⟨ha ▸ hl.ring, ⟨l, hr, ?_⟩, fun c hc => ?_, hl.even, ha ▸ hl.placed⟩
  · refine hp.trans (Perm.of_eq ?_)
    simp only [freeEntries, filter_append, filter_cons, map_append]
    cases b.free <;> rfl
  · rcases mem_middle.1 hc with rfl | hc
    · have hold := hl.holds b hl.mem
      exact ⟨(update_self ..).trans (Nat.mod_eq_of_lt hn), hold.free, hold.arenaStart, hold.mapped⟩
    · exact (hl.holds c (mem_middle.2 (.inr hc))).congr
        (update_of_ne (hl.addr_ne hc) _ _) rfl rfl fun _ => rfl

/-- A header may be built where no block is. -/
structure Fresh (t : Target) (h : OsHeap) (bs : List HeapBlock) (new : Nat) : Prop where
  ne : ∀ c ∈ bs, c.addr ≠ new
  blockList : new ≠ h.blockList
  freeList : new + freeListEntry t ≠ h.freeList
  even : 2 ∣ new

variable {new : Nat}

theorem Fresh.entry_ne (hf : Fresh t h bs new) (hc : c ∈ bs) : c.entry t ≠ new + freeListEntry t :=
  fun heq => hf.ne c hc (Nat.add_right_cancel heq)

theorem Fresh.not_mem_block (hf : Fresh t h bs new) : new ∉ h.blockList :: bs.map (·.addr) := by
  rw [mem_cons, not_or, mem_map]
  exact ⟨hf.blockList, fun ⟨c, hc, heq⟩ => hf.ne c hc heq⟩

theorem Fresh.not_mem_free (hf : Fresh t h bs new) {l : List Nat}
    (hp : l.Perm (freeEntries t bs)) : new + freeListEntry t ∉ h.freeList :: l := by
  rw [mem_cons, not_or, hp.mem_iff, mem_freeEntries]
  exact ⟨hf.freeList, fun ⟨c, hc, _, heq⟩ => hf.entry_ne hc heq⟩

theorem osCreateMappedRegionHeap {a : Nat} (hl : Linked t h bs) (hf : Fresh t h bs a)
    (start : Bool) (hn : headerSize t ≤ n) (hlt : n < 2 ^ t.wordBits)
    (hb : n - headerSize t < 2 ^ blockSizeBits t) :
    Linked t (h.osCreateMappedRegionHeap t a n start)
      (⟨a, n - headerSize t, true, start, false⟩ :: bs) := by
  obtain ⟨l, hr, hp⟩ := hl.freeRing
  have hot := hf.not_mem_free hp
  have hsize : ((n + (2 ^ t.wordBits - headerSize t)) % 2 ^ t.wordBits) % 2 ^ blockSizeBits t
      = n - headerSize t := by
    have hsm : n + (2 ^ t.wordBits - headerSize t) = n - headerSize t + 2 ^ t.wordBits := by omega
    have hw : n - headerSize t < 2 ^ t.wordBits := by omega
    rw [hsm, Nat.add_mod_right, Nat.mod_eq_of_lt hw, Nat.mod_eq_of_lt hb]
  refine ⟨?_, ⟨(a + freeListEntry t) :: l, hr.insertHead hot, hp.cons _⟩, fun c hc => ?_, hl.even, ?_⟩
  · exact hl.ring.insertHead hf.not_mem_block
  · rcases mem_cons.1 hc with rfl | hc
    · exact ⟨(update_self ..).trans hsize, update_self .., update_self ..,
        nofun⟩
    · have hne := hf.ne c hc
      refine (hl.holds c hc).congr (update_of_ne hne _ _) (update_of_ne hne _ _)
        (update_of_ne hne _ _) fun _ => ?_
      exact Links.next_insertHead (hl.entry_ne_head hc) (hf.entry_ne hc)
  · intro x hx
    rcases mem_cons.1 hx with rfl | hx
    · exact ⟨hf.even, hf.freeList⟩
    · exact hl.placed x hx

theorem insertBehind {m : Nat} (hl : Linked t h (xs ++ b :: ys)) (hb : b.free = true)
    (hf : Fresh t h (xs ++ b :: ys) new) (hm : m < 2 ^ blockSizeBits t) :
    Linked t (((h.insertBehind t b.addr new).setBlockSize t new m).setIsFree new true)
      (xs ++ b :: ⟨new, m, true, false, false⟩ :: ys) := by
  obtain ⟨l, hr, hp⟩ := hl.freeRing
  have hot := hf.not_mem_free hp
  have hme : b.entry t ∈ l := hp.mem_iff.2 (mem_freeEntries.2 ⟨b, hl.mem, hb, rfl⟩)
  obtain ⟨l₁, l₂, rfl⟩ := append_of_mem hme
  -- the header is cleared before it goes on the lists; no node of them is touched
  have hbl : ((h.clearHeader t new).block).Ring h.blockList
      (xs.map (·.addr) ++ b.addr :: ys.map (·.addr)) := by
    have hrn : h.block.Ring h.blockList (xs.map (·.addr) ++ b.addr :: ys.map (·.addr)) := by
      simpa using hl.ring
    refine hrn.congr fun a ha => ?_
    have hne : a ≠ new := by
      rintro rfl
      exact hf.not_mem_block (by simpa using ha)
    exact ⟨update_of_ne hne _ _, update_of_ne hne _ _⟩
  have hfr : ((h.clearHeader t new).free).Ring h.freeList (l₁ ++ b.entry t :: l₂) := by
    refine hr.congr fun e he => ?_
    have hne : e ≠ new + freeListEntry t := fun heq => hot (heq ▸ he)
    exact ⟨update_of_ne hne _ _, update_of_ne hne _ _⟩
  refine ⟨?_, ⟨_, hfr.insertAfter hot, ?_⟩, fun c hc => ?_, hl.even, fun a ha => ?_⟩
  · have hmp : (xs ++ b :: ⟨new, m, true, false, false⟩ :: ys).map (·.addr)
        = xs.map (·.addr) ++ b.addr :: new :: ys.map (·.addr) := by simp
    rw [hmp]
    exact hbl.insertAfter (by simpa using hf.not_mem_block)
  · have hls : xs ++ b :: ⟨new, m, true, false, false⟩ :: ys
        = (xs ++ [b]) ++ ⟨new, m, true, false, false⟩ :: ys := by simp
    have hrs : (xs ++ [b]) ++ ys = xs ++ b :: ys := by simp
    have hw : (l₁ ++ b.entry t :: (new + freeListEntry t) :: l₂).Perm
        ((new + freeListEntry t) :: (l₁ ++ b.entry t :: l₂)) := by
      have hmd : ((l₁ ++ [b.entry t]) ++ (new + freeListEntry t) :: l₂).Perm
          ((new + freeListEntry t) :: ((l₁ ++ [b.entry t]) ++ l₂)) := perm_middle
      simpa using hmd
    have hfr : (freeEntries t ((xs ++ [b]) ++ ⟨new, m, true, false, false⟩ :: ys)).Perm
        ((new + freeListEntry t) :: freeEntries t ((xs ++ [b]) ++ ys)) := freeEntries_free rfl
    rw [hls]
    rw [hrs] at hfr
    exact hw.trans ((hp.cons _).trans hfr.symm)
  · rcases mem_behind.1 hc with rfl | hc
    · exact ⟨(update_self ..).trans (Nat.mod_eq_of_lt hm), update_self .., update_self .., nofun⟩
    · have hne := hf.ne c hc
      refine (hl.holds c hc).congr ((update_of_ne hne _ _).trans (update_of_ne hne _ _))
        ((update_of_ne hne _ _).trans (update_of_ne hne _ _))
        (update_of_ne hne _ _) fun hcf => ?_
      have hother : c ∈ xs ++ ys := (mem_middle.1 hc).resolve_left fun heq => by
        simp [heq, hb] at hcf
      exact (Links.next_insertHead (hl.entry_ne hother) (hf.entry_ne hc)).trans
        (update_of_ne (hf.entry_ne hc) _ _)
  · obtain ⟨c, hc, rfl⟩ := mem_map.1 ha
    rcases mem_behind.1 hc with rfl | hc
    · exact ⟨hf.even, hf.freeList⟩
    · exact hl.placed _ (mem_map_of_mem hc)

theorem splitBlock (hl : Linked t h (xs ++ b :: ys)) (hb : b.free = true)
    (hf : Fresh t h (xs ++ b :: ys) (dataAt t b.addr n)) (hsize : b.size < 2 ^ blockSizeBits t)
    (hn : n < 2 ^ blockSizeBits t) :
    Linked t (h.splitBlock t b.addr n) (xs ++ { b with size := n } ::
      ⟨dataAt t b.addr n, b.size - headerSize t - n, true, false, false⟩ :: ys) := by
  have hold : (h.insertBehind t b.addr (dataAt t b.addr n)).blockSize b.addr = b.size :=
    (update_of_ne (hf.ne b hl.mem) _ _).trans (hl.holds b hl.mem).size
  have hin := hl.insertBehind hb hf (m := b.size - headerSize t - n) (by omega)
  rw [← hold] at hin ⊢
  exact hin.setBlockSize hn

/-! ## The walk over the free list -/

/-- The walk finds the first block that is large enough. -/
theorem firstFit (hl : Linked t h bs) (size : Nat) : ∃ n found,
    (∀ fuel, h.firstFit t size fuel (h.free.next h.freeList) = some found ∨
      fuel < n ∧ h.firstFit t size fuel (h.free.next h.freeList) = none) ∧
    ((found = none ∧ ∀ b ∈ bs, b.free = true → b.size < size) ∨
      ∃ b ∈ bs, b.free = true ∧ size ≤ b.size ∧ found = some (b.entry t)) := by
  obtain ⟨l, hr, hp⟩ := hl.freeRing
  refine ⟨l.length + 1, l.find? fun e => size ≤ h.blockSize (e - freeListEntry t), fun fuel => ?_, ?_⟩
  · rw [hr.first_eq]
    exact (firstFit_eq hr.seg hr.head_not_mem).imp id fun hf => ⟨Nat.lt_succ_of_le hf.1, hf.2⟩
  · cases hfn : l.find? fun e => size ≤ h.blockSize (e - freeListEntry t) with
    | none =>
      refine .inl ⟨rfl, fun b hb hbf => ?_⟩
      have hme : b.entry t ∈ l := hp.mem_iff.2 (mem_freeEntries.2 ⟨b, hb, hbf, rfl⟩)
      have hsm := List.find?_eq_none.1 hfn _ hme
      rw [entry_sub, (hl.holds b hb).size, decide_eq_true_eq] at hsm
      exact Nat.lt_of_not_le hsm
    | some e =>
      obtain ⟨b, hb, hbf, rfl⟩ := mem_freeEntries.1 (hp.mem_iff.1 (mem_of_find?_eq_some hfn))
      have hft := List.find?_some hfn
      rw [entry_sub, (hl.holds b hb).size, decide_eq_true_eq] at hft
      exact .inr ⟨b, hb, hbf, hft, rfl⟩

/-! ## Merging -/

/-- The block behind a block does not go into it: the block itself is in use, or the other one does
not begin where it ends, is in use, or starts an arena. -/
theorem osTryMergeNext_skip (hl : Linked t h (xs ++ b :: ys)) (hlt : b.past t < 2 ^ t.wordBits)
    (hsk : b.free = true → ∀ c ∈ ys.head?, b.past t = c.addr → c.free = true →
      c.arenaStart = true) : h.osTryMergeNext t b.addr = (h, false) := by
  have hold := hl.holds b hl.mem
  have hnext : h.block.next b.addr = (ys.map (·.addr)).headD h.blockList := by
    have hrn : h.block.Ring h.blockList (xs.map (·.addr) ++ b.addr :: ys.map (·.addr)) := by
      simpa using hl.ring
    exact hrn.next_eq
  rw [OsHeap.osTryMergeNext, hold.free]
  cases ys with
  | nil =>
    have hh : h.block.next b.addr = h.blockList := hnext
    split
    · rfl
    · rfl
  | cons c ys =>
    have ha : h.block.next b.addr = c.addr := hnext
    have hc := hl.holds c (by simp)
    have hdt : dataAt t b.addr b.size = b.past t := Nat.mod_eq_of_lt hlt
    rw [ha, hold.size, hc.free, hc.arenaStart, hdt]
    split
    · rfl
    · next hb =>
        split
        · rfl
        · split
          · rfl
          · next hp =>
              refine if_pos ?_
              by_cases hcf : c.free = true
              · exact .inr (.inr (hsk (by simpa using hb) c rfl (by simpa using hp) hcf))
              · exact .inl hcf

theorem osTryMergeNext_join (hl : Linked t h (xs ++ b :: c :: ys)) (hlt : b.past t < 2 ^ t.wordBits)
    (hb : b.free = true) (hp : b.past t = c.addr) (hc : c.free = true)
    (hsr : c.arenaStart = false) (hrm : b.size + (headerSize t + c.size) < 2 ^ blockSizeBits t) :
    ∃ h', h.osTryMergeNext t b.addr = (h', true) ∧ h'.blockList = h.blockList ∧
      h'.freeList = h.freeList ∧
      Linked t h' (xs ++ { b with size := b.size + (headerSize t + c.size) } :: ys) := by
  have hold := hl.holds b hl.mem
  have hcm : c ∈ xs ++ b :: c :: ys := by simp
  have hcl := hl.holds c hcm
  have hrn : h.block.Ring h.blockList (xs.map (·.addr) ++ b.addr :: c.addr :: ys.map (·.addr)) := by
    simpa using hl.ring
  have hnext : h.block.next b.addr = c.addr := hrn.next_eq
  have hh : c.addr ≠ h.blockList := fun heq => hrn.head_not_mem (by simp [← heq])
  have hdt : dataAt t b.addr b.size = c.addr := by
    rw [dataAt, ← hp]
    exact Nat.mod_eq_of_lt hlt
  have hst := hl.setBlockSize hrm
  have hls : xs ++ { b with size := b.size + (headerSize t + c.size) } :: c :: ys
      = (xs ++ [{ b with size := b.size + (headerSize t + c.size) }]) ++ c :: ys := by simp
  rw [hls] at hst
  have hdrop := hst.dropFree hc
  rw [append_assoc] at hdrop
  refine ⟨{ h.setBlockSize t b.addr (b.size + (headerSize t + c.size)) with
    block := h.block.remove c.addr, free := h.free.remove (c.entry t) }, ?_, rfl, rfl, hdrop⟩
  rw [OsHeap.osTryMergeNext, hnext, hold.free, hold.size, hcl.free, hcl.size, hcl.arenaStart,
    hl.wasMapped_free hcm hc, hb, hc, hsr, hdt]
  simp only [not_true_eq_false, if_false, if_neg hh, ne_eq, Bool.false_eq_true, or_self]
  rfl

end Linked

end Boron.Os
