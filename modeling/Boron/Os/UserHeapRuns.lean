import Boron.Lib.Run
import Boron.Os.UserHeapCalls

/-! # Runs of a user heap

A program allocates and frees; the system maps regions for it where it likes, or refuses. What should
hold after every call is `HeapSystem.Right`. It does as long as no request is so large that the size
of its region wraps (`user_heap_right_of_fits`): such a region is mapped with the few bytes that are
left of the sum, and its block with a size far behind them. -/

namespace Boron.Os

open List Option

open Rtl (Target)

/-- A heap, the regions that are mapped for it, each as it was asked for, and the pointers in use. -/
structure HeapSystem where
  heap : OsHeap
  mapped : List (Nat × Nat)
  live : List Nat

inductive HeapAction
  /-- `OSAllocateHeap`, with the answer of the system if it is asked to map a region. -/
  | allocate (fuel size : Nat) (answer : Option Nat)
  /-- `OSFreeHeap`. -/
  | free (memory : Nat)

/-- The headers stand one after the other from `a` to `z`. -/
def OsHeap.Tile (t : Target) (h : OsHeap) : Nat → List Nat → Nat → Prop
  | a, [], z => a = z
  | a, b :: bs, z => b = a ∧ OsHeap.Tile t h (b + headerSize t + h.blockSize b) bs z

/-- The block of a pointer lies in the region. -/
def InRegion (t : Target) (r : Nat × Nat) (m : Nat) : Prop :=
  r.1 + headerSize t ≤ m ∧ m ≤ r.1 + r.2

namespace HeapSystem

section

variable (t : Target)

def step (s : HeapSystem) : HeapAction → Option HeapSystem
  | .allocate fuel size answer =>
    (s.heap.osAllocateHeap t fuel size [answer]).map fun r =>
      ⟨r.1, r.2.2 ++ s.mapped, if r.2.1 = 0 then s.live else r.2.1 :: s.live⟩
  | .free memory =>
    (s.heap.osFreeHeap t memory).map fun r =>
      ⟨r.1, r.2.elim s.mapped s.mapped.erase, s.live.erase memory⟩

/-- The size that a request maps, if it maps a region. -/
def askedSize (size : Nat) : Nat :=
  if alignedSize t size < defaultArenaSize - headerSize t then defaultArenaSize
  else (alignedSize t size + headerSize t) % 2 ^ t.wordBits

/-- Where the system may map a region: anywhere in the user space where there is nothing yet. -/
structure Mappable (s : HeapSystem) (start size : Nat) : Prop where
  pos : 0 < size
  aligned : 8 ∣ start
  limit : start + size ≤ userSpaceEnd t
  unused : ∀ r ∈ s.mapped, r.1 + r.2 ≤ start ∨ start + size ≤ r.1
  outside : ∀ a, start ≤ a → a < start + size → a ≠ s.heap.blockList ∧ a ≠ s.heap.freeList

/-- What the system and the program see to. -/
def Promised (s : HeapSystem) : HeapAction → Prop
  | .allocate _ size answer =>
    size < 2 ^ t.wordBits ∧ ∀ start, answer = some start → s.Mappable t start (askedSize t size)
  | .free memory => memory ∈ s.live

/-- The size of the region that a request would need does not wrap, or the region is not mapped. -/
def Fits : HeapAction → Prop
  | .allocate _ size answer => answer = none ∨ alignedSize t size + headerSize t < 2 ^ t.wordBits
  | .free _ => True

/-- What a heap should be like between two calls, with the headers of each mapped region. -/
structure RightFor (s : HeapSystem) (tiles : List (List Nat)) : Prop where
  /-- The block list, region by region. -/
  blocks : s.heap.block.Ring s.heap.blockList tiles.flatten
  tiled : List.Forall₂ (fun r tile => s.heap.Tile t r.1 tile (r.1 + r.2)) s.mapped tiles
  /-- The free list holds the blocks that are marked free, each once. -/
  free : ∃ frees : List Nat, s.heap.free.Ring s.heap.freeList (frees.map (· + freeListEntry t)) ∧
    ∀ a, a ∈ frees ↔ a ∈ tiles.flatten ∧ s.heap.isFree a = true
  merged : ∀ tile ∈ tiles, tile.IsChain fun a b => ¬ (s.heap.isFree a = true ∧ s.heap.isFree b = true)
  /-- A block that meets a region lies in it. -/
  confined : ∀ a ∈ tiles.flatten, ∀ r ∈ s.mapped, a < r.1 + r.2 →
    r.1 < a + headerSize t + s.heap.blockSize a →
    r.1 ≤ a ∧ a + headerSize t + s.heap.blockSize a ≤ r.1 + r.2
  /-- The pointers in use are those to the blocks that are not marked free. -/
  live : ∀ m, m ∈ s.live ↔ ∃ a ∈ tiles.flatten, s.heap.isFree a = false ∧ m = a + headerSize t
  apart : s.live.Pairwise fun m n =>
    m + s.heap.blockSize (m - headerSize t) ≤ n - headerSize t ∨
      n + s.heap.blockSize (n - headerSize t) ≤ m - headerSize t
  /-- A call to free a pointer returns, and gives the region of its block back, as it was mapped, if
  that is the last block in use there. Otherwise it gives nothing back. -/
  freed : ∀ m ∈ s.live, ∃ h' call, s.heap.osFreeHeap t m = some (h', call) ∧
    ∃ r ∈ s.mapped, InRegion t r m ∧ (call = none ∨ call = some r) ∧
      (call = some r ↔ ∀ n ∈ s.live, InRegion t r n → n = m)
  /-- A request returns. -/
  served : ∀ size answer, s.Promised t (.allocate 0 size answer) → Fits t (.allocate 0 size answer) →
    ∃ n, ∀ fuel ≥ n, (s.step t (.allocate fuel size answer)).isSome

/-- What a heap should be like between two calls. -/
def Right (s : HeapSystem) : Prop := ∃ tiles, s.RightFor t tiles

/-- What a request gets: nothing, and then nothing has changed, or a pointer to a block that is large
enough. -/
def Served (s : HeapSystem) (n : Nat) (r : OsHeap × Nat × List (Nat × Nat)) : Prop :=
  r.2.1 = 0 ∧ r.1 = s.heap ∧ r.2.2 = [] ∨
    r.2.1 ≠ 0 ∧ n ≤ r.1.blockSize (r.2.1 - headerSize t)

/-- The invariant: a layout that is settled, as the headers, the system and the program know it. -/
structure Inv (s : HeapSystem) (lay : List Region) : Prop where
  linked : Linked t s.heap (layoutBlocks lay)
  layout : LayoutOk t s.heap lay
  settled : ∀ r ∈ lay, r.Settled
  mapped : s.mapped = lay.map fun r => (r.start, r.size)
  live : s.live.Perm (pointers t (layoutBlocks lay))

end

variable {t : Target} {s : HeapSystem} {h h' : OsHeap} {b c : HeapBlock} {bs xs ys : List HeapBlock}
  {r : Region} {lay P Q : List Region} {a n m start size : Nat} {answer : Option Nat}

theorem inRegion_iff (hl : LayoutOk t h (P ++ r :: Q)) (hc : c ∈ layoutBlocks (P ++ r :: Q)) :
    InRegion t (r.start, r.size) (c.addr + headerSize t) ↔ c ∈ r.blocks := by
  constructor
  · rintro ⟨hlo, hh⟩
    obtain ⟨q, hq, hcq⟩ := mem_layoutBlocks.1 hc
    rcases mem_middle.1 hq with rfl | hqm
    · exact hcq
    · have hb := (hl.drop.ok q hqm).chained.bounds hcq
      have hlt := c.addr_lt_past t
      have hpos := headerSize_pos t
      simp only at hlo hh
      rcases hl.apart hqm with h' | h' <;> rw [Region.stop] at * <;> omega
  · intro hc
    have hb := (hl.ok r hl.mem).chained.bounds hc
    rw [HeapBlock.past, Region.stop] at hb
    exact ⟨by simp only; omega, by simp only; omega⟩

/-! ## Requests -/

theorem search_spec (hln : Linked t h bs) (n : Nat) : ∃ k found,
    (∀ fuel, h.search t n fuel = some found ∨ fuel < k ∧ h.search t n fuel = none) ∧
    ((found = none ∧ (n < defaultArenaSize - headerSize t → ∀ b ∈ bs, b.free = true → b.size < n)) ∨
      n < defaultArenaSize - headerSize t ∧
        ∃ b ∈ bs, b.free = true ∧ n ≤ b.size ∧ found = some (b.entry t)) := by
  by_cases hsm : n < defaultArenaSize - headerSize t
  · obtain ⟨k, found, hfl, hfn⟩ := hln.firstFit n
    refine ⟨k, found, fun fuel => ?_, ?_⟩
    · rw [OsHeap.search, if_pos hsm]
      exact hfl fuel
    · exact hfn.imp (fun hf => ⟨hf.1, fun _ => hf.2⟩) fun hf => ⟨hsm, hf⟩
  · refine ⟨0, none, fun fuel => .inl ?_, .inl ⟨rfl, fun hlt => absurd hlt hsm⟩⟩
    rw [OsHeap.search, if_neg hsm]

/-- The block that a request is served from keeps its size, or gets that of the request. -/
theorem le_blockSize_allocateFrom (hft : n ≤ h.blockSize a) (hn : n < 2 ^ blockSizeBits t) :
    n ≤ (h.allocateFrom t a n).blockSize a := by
  unfold OsHeap.allocateFrom
  split
  · have hst : ((h.splitBlock t a n).takeBlock t a false).blockSize a = n % 2 ^ blockSizeBits t :=
      Function.update_self ..
    rw [hst, Nat.mod_eq_of_lt hn]
  · exact hft

/-- A request that is served from a block of an arena. -/
theorem serve_spec (hln : Linked t h (layoutBlocks (P ++ r :: Q)))
    (hl : LayoutOk t h (P ++ r :: Q)) (hb : b ∈ r.blocks) (har : r.arena = true)
    (hfr : b.free = true) (hn : 8 ∣ n) (hft : n ≤ b.size) (ha : Apart r.blocks)
    (hrs : ∀ q ∈ P ++ Q, q.Settled) {ma : List (Nat × Nat)} {live : List Nat}
    (hmp : ma = (P ++ r :: Q).map fun r => (r.start, r.size))
    (hlv : live.Perm (pointers t (layoutBlocks (P ++ r :: Q)))) :
    (dataAt t b.addr 0 ≠ 0 ∧
        n ≤ (h.allocateFrom t b.addr n).blockSize (dataAt t b.addr 0 - headerSize t)) ∧
      ∃ lay', Inv t ⟨h.allocateFrom t b.addr n, ma, dataAt t b.addr 0 :: live⟩ lay' := by
  have hsize := (hln.holds b (mem_layoutBlocks.2 ⟨r, hl.mem, hb⟩)).size
  have hlr := le_blockSize_allocateFrom (hft.trans_eq hsize.symm) (hft.trans_lt (hl.size_lt hl.mem hb))
  have hps := hl.past_lt hl.mem hb
  have hdt : dataAt t b.addr 0 = b.addr + headerSize t := by
    rw [HeapBlock.past] at hps
    exact Nat.mod_eq_of_lt (by omega)
  have hpos := headerSize_pos t
  obtain ⟨start, size, arena, bls⟩ := r
  obtain ⟨xs, ys, rfl⟩ := append_of_mem hb
  have hR : Reblocked t h h P ⟨start, size, arena, xs ++ b :: ys⟩ Q (xs ++ b :: ys) :=
    ⟨rfl, rfl, hln, hl.ok _ hl.mem⟩
  obtain ⟨bs, hR', hst, hp⟩ := hR.allocateFrom hl har hfr hn hft ha
  rw [hdt, Nat.add_sub_cancel]
  refine ⟨⟨by omega, hlr⟩, _, hR'.linked, hR'.layout hl, fun q hq => ?_, ?_, ?_⟩
  · rcases mem_middle.1 hq with rfl | hq
    · exact hst
    · exact hrs q hq
  · simp [hmp]
  · have hold : layoutBlocks (P ++ ⟨start, size, arena, xs ++ b :: ys⟩ :: Q)
        = layoutBlocks P ++ ((xs ++ b :: ys) ++ layoutBlocks Q) := by simp [layoutBlocks]
    have hw : layoutBlocks (P ++ ⟨start, size, arena, bs⟩ :: Q)
        = layoutBlocks P ++ (bs ++ layoutBlocks Q) := by simp [layoutBlocks]
    rw [hold, pointers_append, pointers_append] at hlv
    show List.Perm _ (pointers t (layoutBlocks (P ++ ⟨start, size, arena, bs⟩ :: Q)))
    rw [hw, pointers_append, pointers_append]
    refine (hlv.cons _).trans (perm_middle.symm.trans ?_)
    exact ((hp.symm.append_right _).append_left _)

theorem Inv.add (hI : Inv t s lay) (hm : s.Mappable t start size) (hsize : headerSize t ≤ size)
    (arena : Bool) (ha : arena = true → size = defaultArenaSize) :
    LayoutOk t (s.heap.osCreateMappedRegionHeap t start size arena)
        (⟨start, size, arena, [⟨start, size - headerSize t, true, arena, false⟩]⟩ :: lay) ∧
      Linked t (s.heap.osCreateMappedRegionHeap t start size arena)
        (⟨start, size - headerSize t, true, arena, false⟩ :: layoutBlocks lay) := by
  have he := freeListEntry_lt t
  have hlm := hm.limit
  have hw := userSpaceEnd_lt t
  have hbt := userSpaceEnd_le_blockSize t
  have hok : Region.Ok t ⟨start, size, arena, [⟨start, size - headerSize t, true, arena, false⟩]⟩ := by
    refine ⟨⟨rfl, ?_⟩, fun b hb => ?_, fun b hb => ?_, fun b hb => ?_, ha, fun _ => ⟨_, rfl⟩⟩
    · show start + headerSize t + (size - headerSize t) = start + size
      omega
    · obtain rfl := mem_singleton.1 hb
      exact hm.aligned
    · obtain rfl := mem_singleton.1 hb
      exact (and_iff_left rfl).symm
    · obtain rfl := mem_singleton.1 hb
      nofun
  have hu : ∀ q ∈ lay, start + size ≤ q.start ∨ q.stop ≤ start := by
    intro q hq
    exact (hm.unused (q.start, q.size) (hI.mapped ▸ List.mem_map_of_mem hq)).symm
  have hy : LayoutOk t s.heap
      (⟨start, size, arena, [⟨start, size - headerSize t, true, arena, false⟩]⟩ :: lay) := by
    refine ⟨fun q hq => ?_, pairwise_cons.2 ⟨hu, hI.layout.disjoint⟩, fun q hq => ?_, fun q hq => ?_⟩
    · rcases mem_cons.1 hq with rfl | hq
      · exact hok
      · exact hI.layout.ok q hq
    · rcases mem_cons.1 hq with rfl | hq
      · exact hlm
      · exact hI.layout.limit q hq
    · rcases mem_cons.1 hq with rfl | hq
      · exact hm.outside
      · exact hI.layout.outside q hq
  have hfr : Linked.Fresh t s.heap (layoutBlocks lay) start := by
    have hsm : start + freeListEntry t < start + size := by omega
    refine ⟨fun c hc => ?_, (hm.outside start le_rfl (by omega)).1,
      (hm.outside _ (Nat.le_add_right _ _) hsm).2, by have := hm.aligned; omega⟩
    obtain ⟨q, hq, hcq⟩ := mem_layoutBlocks.1 hc
    have hbd := (hI.layout.ok q hq).chained.bounds hcq
    have hlt := c.addr_lt_past t
    rcases hu q hq with h' | h' <;> omega
  exact ⟨hy.congr rfl rfl, hI.linked.osCreateMappedRegionHeap hfr arena hsize (by omega) (by omega)⟩

/-- A free block lies in an arena: any other region is one block, which is in use. -/
theorem arena_of_free (hr : r.Ok t) (hst : r.Settled) (hb : b ∈ r.blocks) (hfr : b.free = true) :
    r.arena = true := by
  by_contra hlr
  obtain ⟨d, hd⟩ := hr.single (by simpa using hlr)
  obtain ⟨c, hc, hcf⟩ := hst.live
  rw [hd] at hb hc
  obtain rfl := mem_singleton.1 hb
  obtain rfl := mem_singleton.1 hc
  rw [hfr] at hcf
  cases hcf

theorem eight_dvd_alignedSize (t : Target) (size : Nat) : 8 ∣ alignedSize t size :=
  Nat.dvd_mul_left 8 _

/-- A request is served from the free list, whatever region the block lies in. -/
theorem Inv.serve (hI : Inv t s lay) (hb : b ∈ layoutBlocks lay) (hfr : b.free = true) (hn : 8 ∣ n)
    (hft : n ≤ b.size) : (dataAt t b.addr 0 ≠ 0 ∧
        n ≤ (s.heap.allocateFrom t b.addr n).blockSize (dataAt t b.addr 0 - headerSize t)) ∧
      ∃ lay', Inv t ⟨s.heap.allocateFrom t b.addr n, s.mapped, dataAt t b.addr 0 :: s.live⟩ lay' := by
  obtain ⟨r, hr, hbr⟩ := mem_layoutBlocks.1 hb
  have ha := arena_of_free (hI.layout.ok r hr) (hI.settled r hr) hbr hfr
  obtain ⟨P, Q, rfl⟩ := append_of_mem hr
  exact serve_spec hI.linked hI.layout hbr ha hfr hn hft (hI.settled r hr).apart
    (fun q hq => hI.settled q (mem_middle.2 (.inr hq))) hI.mapped hI.live

/-- An arena is mapped for a request that no block was large enough for, and serves it. -/
theorem Inv.serve_arena (hI : Inv t s lay) (hm : s.Mappable t start defaultArenaSize) (hn : 8 ∣ n)
    (hsl : n < defaultArenaSize - headerSize t)
    (hnn : ∀ b ∈ layoutBlocks lay, b.free = true → b.size < n) : ∃ k h' p,
      (p ≠ 0 ∧ n ≤ h'.blockSize (p - headerSize t)) ∧
      (∃ lay', Inv t ⟨h', (start, defaultArenaSize) :: s.mapped, p :: s.live⟩ lay') ∧
      ∀ fuel, OsHeap.allocateLoop t n fuel []
            (s.heap.osCreateMappedRegionHeap t start defaultArenaSize true) = some (h', p, []) ∨
          fuel < k ∧ OsHeap.allocateLoop t n fuel []
            (s.heap.osCreateMappedRegionHeap t start defaultArenaSize true) = none := by
  have hle : headerSize t ≤ defaultArenaSize := by omega
  obtain ⟨hy, hln⟩ := hI.add hm hle true fun _ => rfl
  obtain ⟨k, found, hc, hfn⟩ := search_spec hln n
  -- the only block that is large enough is the arena itself
  have he : found = some (HeapBlock.entry t ⟨start, defaultArenaSize - headerSize t, true, true,
      false⟩) := by
    rcases hfn with ⟨-, hsr⟩ | ⟨-, b, hb, hbf, hft, rfl⟩
    · have hlt := hsr hsl _ mem_cons_self rfl
      simp only at hlt
      omega
    · rcases mem_cons.1 hb with rfl | hb
      · rfl
      · have hlt := hnn b hb hbf
        omega
  have hp : (start, defaultArenaSize) :: s.mapped = List.map (fun r => (r.start, r.size))
      (⟨start, defaultArenaSize, true, [⟨start, defaultArenaSize - headerSize t, true, true, false⟩]⟩
        :: lay) := by
    rw [hI.mapped]
    rfl
  obtain ⟨hne, hin⟩ := serve_spec (P := []) hln hy (mem_singleton_self _) rfl rfl hn
    (Nat.le_of_lt hsl) (isChain_singleton _) hI.settled hp hI.live
  refine ⟨k, _, _, hne, hin, fun fuel => ?_⟩
  rw [OsHeap.allocateLoop]
  rcases hc fuel with hsm | ⟨hlt, hnil⟩
  · left
    rw [hsm, he, bind_some, map_some, OsHeap.serve, entry_sub]
  · right
    rw [hnil]
    exact ⟨hlt, rfl⟩

/-- A request that is too large for an arena gets a region of its own. -/
theorem Inv.serve_large (hI : Inv t s lay) (hm : s.Mappable t start (n + headerSize t)) :
    (dataAt t start 0 ≠ 0 ∧ n ≤ (s.heap.allocateLarge t start (n + headerSize t)).blockSize
        (dataAt t start 0 - headerSize t)) ∧
      ∃ lay', Inv t ⟨s.heap.allocateLarge t start (n + headerSize t),
        (start, n + headerSize t) :: s.mapped, dataAt t start 0 :: s.live⟩ lay' := by
  obtain ⟨hy, hln⟩ := hI.add hm (Nat.le_add_left _ _) false nofun
  rw [Nat.add_sub_cancel] at hy hln
  have hpos := headerSize_pos t
  have hlm := hm.limit
  have hw := userSpaceEnd_lt t
  have hdt : dataAt t start 0 = start + headerSize t := Nat.mod_eq_of_lt (by omega)
  have hR : Reblocked t _ _ [] ⟨start, n + headerSize t, false, [⟨start, n, true, false, false⟩]⟩ lay
      ([] ++ ⟨start, n, true, false, false⟩ :: []) := ⟨rfl, rfl, hln, hy.ok _ mem_cons_self⟩
  have htk := hR.linked_middle.takeBlock rfl true
  have hR' : Reblocked t (s.heap.osCreateMappedRegionHeap t start (n + headerSize t) false)
      (s.heap.allocateLarge t start (n + headerSize t)) []
      ⟨start, n + headerSize t, false, [⟨start, n, true, false, false⟩]⟩ lay
      ([] ++ ⟨start, n, false, false, true⟩ :: []) :=
    Reblocked.of_middle rfl rfl htk (hR.ok.setFree rfl fun _ => rfl)
  have hsize := (hR'.linked_middle.holds _ hR'.linked_middle.mem).size
  rw [hdt, Nat.add_sub_cancel]
  refine ⟨⟨by omega, hsize.ge⟩, _, hR'.linked, hR'.layout hy, fun q hq => ?_, ?_, ?_⟩
  · rcases mem_cons.1 hq with rfl | hq
    · exact ⟨isChain_singleton _, _, mem_singleton_self _, rfl⟩
    · exact hI.settled q hq
  · rw [hI.mapped]
    rfl
  · exact hI.live.cons _

theorem Inv.allocateLoop (hI : Inv t s lay) (hn : 8 ∣ n)
    (hm : ∀ start, answer = some start → s.Mappable t start
      (if n < defaultArenaSize - headerSize t then defaultArenaSize
        else (n + headerSize t) % 2 ^ t.wordBits))
    (hfs : answer = none ∨ n + headerSize t < 2 ^ t.wordBits) : ∃ k r, s.Served t n r ∧
      (∃ lay', Inv t ⟨r.1, r.2.2 ++ s.mapped, if r.2.1 = 0 then s.live else r.2.1 :: s.live⟩ lay') ∧
      ∀ fuel, OsHeap.allocateLoop t n fuel [answer] s.heap = some r ∨
        fuel < k ∧ OsHeap.allocateLoop t n fuel [answer] s.heap = none := by
  obtain ⟨k, found, hsr, hfn⟩ := search_spec hI.linked n
  rcases hfn with ⟨rfl, hnn⟩ | ⟨-, b, hb, hbf, hft, rfl⟩
  · cases answer with
    | none =>
      refine ⟨k, (s.heap, 0, []), .inl ⟨rfl, rfl, rfl⟩, ⟨lay, hI⟩, fun fuel => ?_⟩
      rw [OsHeap.allocateLoop]
      rcases hsr fuel with hsm | ⟨hlt, hnil⟩
      · exact .inl (by rw [hsm]; rfl)
      · exact .inr ⟨hlt, by rw [hnil]; rfl⟩
    | some start =>
      have hmp := hm start rfl
      by_cases hsl : n < defaultArenaSize - headerSize t
      · rw [if_pos hsl] at hmp
        obtain ⟨k', h', p, hp, hin, hlp⟩ := hI.serve_arena hmp hn hsl (hnn hsl)
        refine ⟨max k k', (h', p, [(start, defaultArenaSize)]), .inr hp, ?_, fun fuel => ?_⟩
        · rw [if_neg hp.1]
          exact hin
        · rw [OsHeap.allocateLoop]
          rcases hsr fuel with hsm | ⟨hlt, hnil⟩
          · rw [hsm, bind_some]
            simp only [if_pos hsl]
            rcases hlp fuel with hsv | ⟨hlt, hnil⟩
            · exact .inl (by rw [hsv]; rfl)
            · exact .inr ⟨lt_max_of_lt_right hlt, by rw [hnil]; rfl⟩
          · exact .inr ⟨lt_max_of_lt_left hlt, by rw [hnil]; rfl⟩
      · rw [if_neg hsl] at hmp
        have hlt : n + headerSize t < 2 ^ t.wordBits := hfs.resolve_left (by simp)
        have hmd : (n + headerSize t) % 2 ^ t.wordBits = n + headerSize t := Nat.mod_eq_of_lt hlt
        rw [hmd] at hmp
        obtain ⟨hne, hin⟩ := hI.serve_large hmp
        refine ⟨k, (s.heap.allocateLarge t start (n + headerSize t), dataAt t start 0,
          [(start, n + headerSize t)]), .inr hne, ?_, fun fuel => ?_⟩
        · rw [if_neg hne.1]
          exact hin
        · rw [OsHeap.allocateLoop]
          rcases hsr fuel with hsm | ⟨hlt, hnil⟩
          · left
            rw [hsm, bind_some]
            simp only [if_neg hsl, hmd]
          · exact .inr ⟨hlt, by rw [hnil]; rfl⟩
  · obtain ⟨hne, hin⟩ := hI.serve hb hbf hn hft
    refine ⟨k, (s.heap.allocateFrom t b.addr n, dataAt t b.addr 0, []), .inr hne, ?_, fun fuel => ?_⟩
    · rw [if_neg hne.1]
      exact hin
    · unfold OsHeap.allocateLoop
      rcases hsr fuel with hsm | ⟨hlt, hnil⟩
      · left
        rw [hsm, bind_some]
        simp only [OsHeap.serve, entry_sub]
      · exact .inr ⟨hlt, by rw [hnil]; rfl⟩

/-- A request keeps the invariant, gets what it asks for or nothing, and returns if the walk over the
free list is given enough turns. -/
theorem Inv.allocate {size : Nat} (hI : Inv t s lay)
    (hp : s.Promised t (.allocate 0 size answer)) (hf : Fits t (.allocate 0 size answer)) :
    ∃ k r, s.Served t (alignedSize t size) r ∧
      (∃ lay', Inv t ⟨r.1, r.2.2 ++ s.mapped, if r.2.1 = 0 then s.live else r.2.1 :: s.live⟩ lay') ∧
      ∀ fuel, s.heap.osAllocateHeap t fuel size [answer] = some r ∨
        fuel < k ∧ s.heap.osAllocateHeap t fuel size [answer] = none := by
  by_cases hz : size = 0
  · refine ⟨0, (s.heap, 0, []), .inl ⟨rfl, rfl, rfl⟩, ⟨lay, hI⟩, fun fuel => .inl ?_⟩
    rw [OsHeap.osAllocateHeap, if_pos hz]
  · obtain ⟨k, r, hsr, hin, hlp⟩ := hI.allocateLoop (eight_dvd_alignedSize t size) hp.2 hf
    refine ⟨k, r, hsr, hin, fun fuel => ?_⟩
    rw [OsHeap.osAllocateHeap, if_neg hz]
    exact hlp fuel

/-! ## Freeing -/

theorem layoutBlocks_append :
    layoutBlocks (P ++ r :: Q) = layoutBlocks P ++ (r.blocks ++ layoutBlocks Q) := by
  simp [layoutBlocks]

theorem mem_live_iff (hI : Inv t s lay) {p : Nat} :
    p ∈ s.live ↔ ∃ c ∈ layoutBlocks lay, c.free = false ∧ c.addr + headerSize t = p :=
  hI.live.mem_iff.trans mem_pointers

theorem only_iff (hI : Inv t s (P ++ r :: Q)) :
    (∀ p ∈ s.live, InRegion t (r.start, r.size) p → p = m) ↔ ∀ p ∈ pointers t r.blocks, p = m := by
  constructor
  · intro ha p hp
    obtain ⟨c, hc, hcf, rfl⟩ := mem_pointers.1 hp
    have hme : c ∈ layoutBlocks (P ++ r :: Q) := mem_layoutBlocks.2 ⟨r, hI.layout.mem, hc⟩
    exact ha _ ((mem_live_iff hI).2 ⟨c, hme, hcf, rfl⟩) ((inRegion_iff hI.layout hme).2 hc)
  · intro ha p hp hin
    obtain ⟨c, hc, hcf, rfl⟩ := (mem_live_iff hI).1 hp
    exact ha _ (mem_pointers.2 ⟨c, (inRegion_iff hI.layout hc).1 hin, hcf, rfl⟩)

/-- The region of the last block in use is gone. -/
theorem Inv.drop (hI : Inv t s (P ++ r :: Q)) (hbl : h'.blockList = s.heap.blockList)
    (hfr : h'.freeList = s.heap.freeList) (hln : Linked t h' (layoutBlocks P ++ layoutBlocks Q))
    (hls : pointers t r.blocks = [m]) :
    Inv t ⟨h', s.mapped.erase (r.start, r.size), s.live.erase m⟩ (P ++ Q) := by
  refine ⟨?_, hI.layout.drop.congr hbl hfr, fun q hq => hI.settled q (mem_middle.2 (.inr hq)), ?_, ?_⟩
  · simpa [layoutBlocks] using hln
  · have hot : (r.start, r.size) ∉ P.map fun r => (r.start, r.size) := by
      intro hin
      obtain ⟨q, hq, heq⟩ := List.mem_map.1 hin
      obtain ⟨c, hc, -⟩ := (hI.settled r hI.layout.mem).live
      have hb := (hI.layout.ok r hI.layout.mem).chained.bounds hc
      have hlt := c.addr_lt_past t
      have hst : q.start = r.start := congrArg Prod.fst heq
      have hsize : q.size = r.size := congrArg Prod.snd heq
      have ha := hI.layout.apart (mem_append_left Q hq)
      rw [Region.stop, Region.stop, hst, hsize] at ha
      rw [Region.stop] at hb
      omega
    show s.mapped.erase (r.start, r.size) = _
    rw [hI.mapped, map_append, map_cons, erase_append_right _ hot, erase_cons_head, map_append]
  · have hlv := hI.live
    rw [layoutBlocks_append, pointers_append, pointers_append, hls] at hlv
    have hp : (m :: pointers t (layoutBlocks (P ++ Q))).Perm s.live := by
      refine List.Perm.trans ?_ hlv.symm
      simpa [layoutBlocks, pointers_append] using perm_middle.symm
    exact (cons_perm_iff_perm_erase.1 hp).2.symm

/-- What freeing a pointer does. -/
structure Frees (t : Target) (s : HeapSystem) (m : Nat) (h' : OsHeap) (call : Option (Nat × Nat)) :
    Prop where
  returns : s.heap.osFreeHeap t m = some (h', call)
  region : ∃ r ∈ s.mapped, InRegion t r m ∧ (call = none ∨ call = some r) ∧
    (call = some r ↔ ∀ p ∈ s.live, InRegion t r p → p = m)
  inv : ∃ lay, Inv t ⟨h', call.elim s.mapped s.mapped.erase, s.live.erase m⟩ lay

theorem Inv.free_large (hI : Inv t s (P ++ r :: Q)) (hr : r.blocks = [b]) (ha : r.arena = false)
    (hb : b.free = false) : ∃ h' call, Frees t s (b.addr + headerSize t) h' call := by
  have hok := hI.layout.ok r hI.layout.mem
  have hme : b ∈ r.blocks := by simp [hr]
  have hls : pointers t r.blocks = [b.addr + headerSize t] := by rw [hr, pointers_used hb]; rfl
  have hin := (inRegion_iff hI.layout (mem_layoutBlocks.2 ⟨r, hI.layout.mem, hme⟩)).2 hme
  have hln := hI.linked
  rw [layoutBlocks_append, hr] at hln
  have hold := hln.holds b (by simp)
  have hpos := headerSize_pos t
  have hc := hok.chained
  rw [hr] at hc
  obtain ⟨hsr, hst⟩ : b.addr = r.start ∧ b.past t = r.stop := hc
  have hsize : (headerSize t + b.size) % 2 ^ t.wordBits = r.size := by
    have hlt := hI.layout.past_lt hI.layout.mem hme
    rw [HeapBlock.past] at hlt hst
    rw [Region.stop] at hst
    rw [Nat.mod_eq_of_lt (by omega)]
    omega
  have hp : (r.start, r.size) ∈ s.mapped := by
    rw [hI.mapped]
    exact List.mem_map.2 ⟨r, hI.layout.mem, rfl⟩
  refine ⟨{ s.heap with block := s.heap.block.remove b.addr }, some (r.start, r.size), ?_,
    ⟨_, hp, hin, .inr rfl, ?_⟩, P ++ Q, ?_⟩
  · rw [OsHeap.osFreeHeap, if_neg (by omega), Nat.add_sub_cancel]
    simp only [hold.free, hb, hold.mapped hb, hok.used b hme hb, ha, hold.size, hsize, ← hsr,
      Bool.false_eq_true, if_false, Bool.not_false, if_true]
  · exact iff_of_true rfl ((only_iff hI).2 (by simp [hls]))
  · exact hI.drop rfl rfl (hln.dropUsed hb) hls

theorem whole_iff (hr : r.Ok t) (hlt : r.stop < 2 ^ t.wordBits) (ha : r.arena = true)
    (hb : r.blocks = xs ++ b :: ys) :
    b.arenaStart = true ∧ (b.size + headerSize t) % 2 ^ t.wordBits = defaultArenaSize ↔
      xs = [] ∧ ys = [] := by
  have hme : b ∈ r.blocks := by simp [hb]
  have hbd := hr.chained.bounds hme
  have hc := hr.chained
  rw [hb] at hc
  obtain ⟨hx, hy⟩ := chained_middle.1 hc
  have hsize := hr.arenaSize ha
  have hmd : (b.size + headerSize t) % 2 ^ t.wordBits = b.size + headerSize t := by
    rw [HeapBlock.past] at hbd
    exact Nat.mod_eq_of_lt (by omega)
  rw [hmd, hr.starts b hme]
  constructor
  · rintro ⟨⟨-, hst⟩, hw⟩
    rw [hst] at hx
    have he : b.past t = r.stop := by
      rw [HeapBlock.past, Region.stop, hst, hsize]
      omega
    rw [he] at hy
    exact ⟨hx.eq_nil, hy.eq_nil⟩
  · rintro ⟨rfl, rfl⟩
    have hst : b.addr = r.start := hx.symm
    have he : b.past t = r.stop := hy
    rw [HeapBlock.past, Region.stop, hst, hsize] at he
    exact ⟨⟨ha, hst⟩, by omega⟩

theorem Inv.free_arena (hI : Inv t s (P ++ r :: Q)) (hr : r.blocks = xs ++ b :: ys)
    (har : r.arena = true) (hb : b.free = false) :
    ∃ h' call, Frees t s (b.addr + headerSize t) h' call := by
  have hok := hI.layout.ok r hI.layout.mem
  have hme : b ∈ r.blocks := by simp [hr]
  have hin := (inRegion_iff hI.layout (mem_layoutBlocks.2 ⟨r, hI.layout.mem, hme⟩)).2 hme
  have hln := hI.linked
  rw [layoutBlocks_middle hr] at hln
  have hold := hln.holds b hln.mem
  have hpos := headerSize_pos t
  have hap := (hI.settled r hI.layout.mem).apart
  rw [hr] at hap
  obtain ⟨⟨hx, hys⟩, -⟩ := apart_middle.1 hap
  have hR : Reblocked t s.heap (s.heap.releaseBlock t b.addr) P r Q
      (xs ++ { b with free := true } :: ys) :=
    .of_middle rfl rfl (hln.releaseBlock hb)
      (hok.setFree hr fun hu => absurd hu.symm Bool.false_ne_true)
  obtain ⟨b₁, ys', hR₁, had, hb₁, hys', hh, hp⟩ := hR.mergeNext hI.layout
    (fun q hq => (hI.settled q (by simp [hq])).live) rfl hys
  obtain ⟨b₂, xs', h₂, hpr, hR₂, hb₂, hx', hls, hp'⟩ :=
    hR₁.mergePrev hI.layout har hb₁ hx
  rw [had] at hpr
  have hpn : pointers t r.blocks = pointers t xs' ++ (b.addr + headerSize t) :: pointers t ys' := by
    rw [hr, pointers_append, pointers_used hb, hp, hp']
  have hy := hR₂.layout hI.layout
  have hln₂ := hR₂.linked_middle
  have hold₂ := hln₂.holds b₂ hln₂.mem
  have hw := whole_iff hR₂.ok ((hy.limit _ hy.mem).trans_lt (userSpaceEnd_lt t)) har rfl
  have hmp : (r.start, r.size) ∈ s.mapped := by
    rw [hI.mapped]
    exact List.mem_map.2 ⟨r, hI.layout.mem, rfl⟩
  have hrn : s.heap.osFreeHeap t (b.addr + headerSize t) = if xs' = [] ∧ ys' = [] then
          some ({ h₂ with
              block := h₂.block.remove b₂.addr
              free := h₂.free.remove (b₂.entry t) },
            some (b₂.addr, (headerSize t + b₂.size) % 2 ^ t.wordBits))
        else some (h₂, none) := by
    rw [OsHeap.osFreeHeap, if_neg (by omega), Nat.add_sub_cancel]
    simp only [hold.free, hb, hold.mapped hb, hok.used b hme hb, har, Bool.false_eq_true, if_false,
      Bool.not_true, hpr, hold₂.arenaStart, hold₂.size, hw]
    rfl
  by_cases ha : xs' = [] ∧ ys' = []
  · obtain ⟨rfl, rfl⟩ := ha
    obtain ⟨hsr, hst⟩ : b₂.addr = r.start ∧ b₂.past t = r.stop := hR₂.ok.chained
    have hsize : (headerSize t + b₂.size) % 2 ^ t.wordBits = r.size := by
      have hlt := hy.past_lt hy.mem (mem_singleton_self b₂)
      rw [HeapBlock.past] at hlt hst
      rw [Region.stop] at hst
      rw [Nat.mod_eq_of_lt (by omega)]
      omega
    have hon : pointers t r.blocks = [b.addr + headerSize t] := hpn
    rw [if_pos ⟨rfl, rfl⟩, hsize] at hrn
    refine ⟨{ h₂ with
        block := h₂.block.remove b₂.addr
        free := h₂.free.remove (b₂.entry t) }, some (r.start, r.size), hrn.trans (by rw [hsr]),
      ⟨_, hmp, hin, .inr rfl, ?_⟩, P ++ Q, ?_⟩
    · exact iff_of_true rfl ((only_iff hI).2 (by simp [hon]))
    · exact hI.drop hR₂.blockList hR₂.freeList (by simpa using hln₂.dropFree hb₂) hon
  · rw [if_neg ha] at hrn
    -- a neighbour of the merged block is in use
    obtain ⟨c, hc, hcf⟩ : ∃ c ∈ xs' ++ ys', c.free = false := by
      rcases eq_nil_or_concat' xs' with rfl | ⟨zs, c, rfl⟩
      · cases ys' with
        | nil => exact absurd ⟨rfl, rfl⟩ ha
        | cons c ys' => exact ⟨c, by simp, hh c rfl⟩
      · exact ⟨c, by simp, hls c (by simp)⟩
    refine ⟨h₂, none, hrn, ⟨_, hmp, hin, .inl rfl, ?_⟩, P ++ { r with blocks := xs' ++ b₂ :: ys' } :: Q,
      hR₂.linked, hy, fun q hq => ?_, ?_, ?_⟩
    · refine iff_of_false (some_ne_none _).symm fun hol => ?_
      have hother : c.addr + headerSize t ∈ pointers t (xs ++ ys) := by
        rw [pointers_append, ← hp, ← hp', ← pointers_append]
        exact mem_pointers.2 ⟨c, hc, hcf, rfl⟩
      obtain ⟨d, hd, hdf, hdr⟩ := mem_pointers.1 hother
      have heq := (only_iff hI).1 hol (d.addr + headerSize t)
        (hr ▸ mem_pointers.2 ⟨d, mem_middle.2 (.inr hd), hdf, rfl⟩)
      refine hln.addr_ne ?_ (Nat.add_right_cancel heq)
      simp only [mem_append] at hd ⊢
      exact hd.imp .inr .inl
    · rcases mem_middle.1 hq with rfl | hq
      · refine ⟨apart_middle.2 ⟨⟨hx', hys'⟩, fun _ => ⟨hls, hh⟩⟩, c, ?_, hcf⟩
        exact mem_middle.2 (.inr hc)
      · exact hI.settled q (mem_middle.2 (.inr hq))
    · show s.mapped = _
      rw [hI.mapped]
      simp
    · have hlv := hI.live
      rw [layoutBlocks_append, pointers_append, pointers_append, hpn] at hlv
      have hpm : ((b.addr + headerSize t) :: pointers t (layoutBlocks
          (P ++ { r with blocks := xs' ++ b₂ :: ys' } :: Q))).Perm s.live := by
        refine List.Perm.trans ?_ hlv.symm
        have hmd : ((b.addr + headerSize t) :: ((pointers t (layoutBlocks P) ++ pointers t xs')
            ++ (pointers t ys' ++ pointers t (layoutBlocks Q)))).Perm _ := perm_middle.symm
        simpa [layoutBlocks_append, pointers_append, pointers_free hb₂] using hmd
      exact (cons_perm_iff_perm_erase.1 hpm).2.symm

theorem Inv.free (hI : Inv t s lay) (hm : m ∈ s.live) : ∃ h' call, Frees t s m h' call := by
  obtain ⟨b, hb, hfr, rfl⟩ := (mem_live_iff hI).1 hm
  obtain ⟨r, hr, hbr⟩ := mem_layoutBlocks.1 hb
  obtain ⟨P, Q, rfl⟩ := append_of_mem hr
  cases ha : r.arena with
  | true =>
    obtain ⟨xs, ys, hbl⟩ := append_of_mem hbr
    exact hI.free_arena hbl ha hfr
  | false =>
    obtain ⟨d, hd⟩ := (hI.layout.ok r hr).single ha
    rw [hd] at hbr
    obtain rfl := mem_singleton.1 hbr
    exact hI.free_large hd ha hfr

/-! ## What the invariant says -/

theorem tile_of_chained {a z : Nat} (hc : Chained t a bs z)
    (hsize : ∀ b ∈ bs, h.blockSize b.addr = b.size) : h.Tile t a (bs.map (·.addr)) z := by
  induction bs generalizing a with
  | nil => exact hc
  | cons b bs ih =>
    obtain ⟨rfl, hrs⟩ := hc
    refine ⟨rfl, ?_⟩
    rw [hsize b mem_cons_self]
    exact ih hrs fun c hc => hsize c (mem_cons_of_mem _ hc)

theorem chained_pairwise {a z : Nat} (hc : Chained t a bs z) :
    bs.Pairwise fun b c => b.past t ≤ c.addr := by
  induction bs generalizing a with
  | nil => exact .nil
  | cons b bs ih =>
    obtain ⟨rfl, hrs⟩ := hc
    exact pairwise_cons.2 ⟨fun c hc => (hrs.bounds hc).1, ih hrs⟩

theorem blocks_apart (hl : LayoutOk t h lay) :
    (layoutBlocks lay).Pairwise fun b c => b.past t ≤ c.addr ∨ c.past t ≤ b.addr := by
  refine pairwise_flatMap.2 ⟨fun r hr => ?_, hl.disjoint.imp_of_mem fun {r q} hr hq hrq b hb c hc => ?_⟩
  · exact (chained_pairwise (hl.ok r hr).chained).imp .inl
  · have hb' := (hl.ok r hr).chained.bounds hb
    have hc' := (hl.ok q hq).chained.bounds hc
    omega

theorem Inv.rightFor (hI : Inv t s lay) : s.RightFor t (lay.map fun r => r.blocks.map (·.addr)) := by
  have hft : (lay.map fun r => r.blocks.map (·.addr)).flatten = (layoutBlocks lay).map (·.addr) := by
    rw [layoutBlocks, map_flatMap, flatMap_def]
  have hholds := hI.linked.holds
  have hml : ∀ {r}, r ∈ lay → ∀ {b}, b ∈ r.blocks → b ∈ layoutBlocks lay := fun hr _ hb =>
    mem_layoutBlocks.2 ⟨_, hr, hb⟩
  refine ⟨hft ▸ hI.linked.ring, ?_, ?_, ?_, ?_, fun m => ?_, ?_, fun m hm => ?_,
    fun size answer hp hf => ?_⟩
  · rw [hI.mapped, forall₂_map_left_iff, forall₂_map_right_iff, forall₂_same]
    exact fun r hr => tile_of_chained (hI.layout.ok r hr).chained fun b hb =>
      (hholds b (hml hr hb)).size
  · obtain ⟨l, hrn, hpr⟩ := hI.linked.freeRing
    have hme : ∀ e, e ∈ l ↔ ∃ b ∈ layoutBlocks lay, b.free = true ∧ b.entry t = e := fun e =>
      hpr.mem_iff.trans mem_freeEntries
    have hbk : (l.map (· - freeListEntry t)).map (· + freeListEntry t) = l := by
      rw [List.map_map]
      refine (map_congr_left fun e he => ?_).trans (List.map_id l)
      obtain ⟨b, -, -, rfl⟩ := (hme e).1 he
      exact Nat.sub_add_cancel (Nat.le_add_left _ _)
    refine ⟨l.map (· - freeListEntry t), hbk.symm ▸ hrn, fun a => ?_⟩
    rw [hft, List.mem_map, List.mem_map]
    constructor
    · rintro ⟨e, he, rfl⟩
      obtain ⟨b, hb, hfr, rfl⟩ := (hme e).1 he
      rw [entry_sub]
      exact ⟨⟨b, hb, rfl⟩, (hholds b hb).free.trans hfr⟩
    · rintro ⟨⟨b, hb, rfl⟩, hfr⟩
      exact ⟨b.entry t, (hme _).2 ⟨b, hb, (hholds b hb).free.symm.trans hfr, rfl⟩, entry_sub t b⟩
  · intro tile htl
    obtain ⟨r, hr, rfl⟩ := List.mem_map.1 htl
    refine (isChain_map _).2 ((hI.settled r hr).apart.imp_of_mem_imp fun b c hb hc hbc => ?_)
    rw [(hholds b (hml hr hb)).free, (hholds c (hml hr hc)).free]
    exact hbc
  · intro a ha q hq hlo hh
    rw [hft] at ha
    obtain ⟨b, hb, rfl⟩ := List.mem_map.1 ha
    obtain ⟨p, hp, hbp⟩ := mem_layoutBlocks.1 hb
    have hbd := (hI.layout.ok p hp).chained.bounds hbp
    rw [hI.mapped] at hq
    obtain ⟨r, hr, rfl⟩ := List.mem_map.1 hq
    obtain ⟨P, Q, rfl⟩ := append_of_mem hr
    rw [(hholds b hb).size] at hh ⊢
    rw [HeapBlock.past] at hbd
    rcases mem_middle.1 hp with rfl | hp
    · exact hbd
    · have hap := hI.layout.apart hp
      rw [Region.stop, Region.stop] at hap
      rw [Region.stop] at hbd
      simp only at hlo hh
      omega
  · rw [mem_live_iff hI, hft]
    constructor
    · rintro ⟨c, hc, hcf, rfl⟩
      exact ⟨c.addr, List.mem_map_of_mem hc, (hholds c hc).free.trans hcf, rfl⟩
    · rintro ⟨a, ha, haf, rfl⟩
      obtain ⟨c, hc, rfl⟩ := List.mem_map.1 ha
      exact ⟨c, hc, (hholds c hc).free.symm.trans haf, rfl⟩
  · refine (hI.live.pairwise_iff fun h => h.symm).2 (pairwise_map.2 ?_)
    refine ((blocks_apart hI.layout).sublist filter_sublist).imp_of_mem fun {b c} hb hc hbc => ?_
    have hb' := (hholds b (mem_of_mem_filter hb)).size
    have hc' := (hholds c (mem_of_mem_filter hc)).size
    rw [Nat.add_sub_cancel, Nat.add_sub_cancel, hb', hc']
    exact hbc
  · obtain ⟨h', call, hfs⟩ := hI.free hm
    exact ⟨h', call, hfs.returns, hfs.region⟩
  · obtain ⟨k, r, -, -, hru⟩ := hI.allocate hp hf
    refine ⟨k, fun fuel hfl => ?_⟩
    rcases hru fuel with hsm | ⟨hlt, -⟩
    · rw [HeapSystem.step, hsm]
      rfl
    · omega

/-! ## Runs -/

/-- A heap that was just initialized, in a program that has mapped nothing for it. -/
def initial (h : OsHeap) : HeapSystem := ⟨h.osInitializeHeap, [], []⟩

theorem inv_initial (hh : 2 ∣ h.freeList) : Inv t (initial h) [] where
  linked := ⟨Links.ring_initHead _ _, ⟨[], Links.ring_initHead _ _, .nil⟩, nofun, hh, nofun⟩
  layout := ⟨nofun, .nil, nofun, nofun⟩
  settled := nofun
  mapped := rfl
  live := .nil

/-- The step lemma. -/
theorem Inv.step {s' : HeapSystem} {a : HeapAction} (hI : ∃ lay, Inv t s lay)
    (hC : s.Promised t a ∧ Fits t a) (hs : s.step t a = some s') : ∃ lay, Inv t s' lay := by
  obtain ⟨lay, hI⟩ := hI
  cases a with
  | allocate fuel size answer =>
    obtain ⟨k, r, -, hin, hrn⟩ := hI.allocate hC.1 hC.2
    rw [HeapSystem.step] at hs
    rcases hrn fuel with hsm | ⟨-, hnn⟩
    · rw [hsm] at hs
      cases hs
      exact hin
    · rw [hnn] at hs
      cases hs
  | free mem =>
    obtain ⟨h', call, hfr⟩ := hI.free hC.1
    rw [HeapSystem.step, hfr.returns] at hs
    cases hs
    exact hfr.inv

/-- The run lemma. -/
theorem inv_of_reaches (hh : 2 ∣ h.freeList)
    (hr : Reaches (HeapSystem.step t) (fun s a => s.Promised t a ∧ Fits t a) (initial h) s) :
    ∃ lay, Inv t s lay :=
  hr.invariant ⟨[], inv_initial hh⟩ fun _ _ _ hI hC hs => Inv.step hI hC hs

/-- **As long as no region is mapped for a request whose size wraps with the header, the heap is right
between any two calls.** -/
theorem user_heap_right_of_fits (hh : 2 ∣ h.freeList)
    (hr : Reaches (HeapSystem.step t) (fun s a => s.Promised t a ∧ Fits t a) (initial h) s) :
    s.Right t := by
  obtain ⟨lay, hI⟩ := inv_of_reaches hh hr
  exact ⟨_, hI.rightFor⟩

/-! ## Runs on given requests -/

/-- `Mappable`, as a test. -/
def mappableTest (t : Target) (s : HeapSystem) (start size : Nat) : Bool :=
  decide (0 < size ∧ 8 ∣ start ∧ start + size ≤ userSpaceEnd t) &&
    s.mapped.all (fun r => decide (r.1 + r.2 ≤ start ∨ start + size ≤ r.1)) &&
    decide ((s.heap.blockList < start ∨ start + size ≤ s.heap.blockList) ∧
      (s.heap.freeList < start ∨ start + size ≤ s.heap.freeList))

theorem mappable_of_test (h : s.mappableTest t start size = true) : s.Mappable t start size := by
  rw [mappableTest, Bool.and_eq_true, Bool.and_eq_true, decide_eq_true_eq, decide_eq_true_eq,
    List.all_eq_true] at h
  obtain ⟨⟨⟨hpos, ha, hlm⟩, hu⟩, hb, hfr⟩ := h
  refine ⟨hpos, ha, hlm, fun r hr => of_decide_eq_true (hu r hr), ?_⟩
  intro a hlo hh
  exact ⟨by omega, by omega⟩

/-- `Promised`, as a test. -/
def promisedTest (t : Target) (s : HeapSystem) : HeapAction → Bool
  | .allocate _ size answer => decide (size < 2 ^ t.wordBits) &&
      answer.all fun start => s.mappableTest t start (askedSize t size)
  | .free memory => decide (memory ∈ s.live)

theorem promised_of_test {a : HeapAction} (h : s.promisedTest t a = true) : s.Promised t a := by
  cases a with
  | allocate fuel size answer =>
    rw [promisedTest, Bool.and_eq_true, decide_eq_true_eq] at h
    refine ⟨h.1, fun start hst => ?_⟩
    subst hst
    exact mappable_of_test h.2
  | free mem =>
    have hme : mem ∈ s.live := of_decide_eq_true h
    exact hme

instance (t : Target) (a : HeapAction) : Decidable (Fits t a) :=
  match a with
  | .allocate _ size answer => inferInstanceAs (Decidable (answer = none ∨
      alignedSize t size + headerSize t < 2 ^ t.wordBits))
  | .free _ => .isTrue trivial

/-- A heap whose list heads stand at `n` and right behind that. -/
def sampleHeap (n : Nat) : OsHeap :=
  ⟨n, n + 16, ⟨fun _ => 0, fun _ => 0⟩, ⟨fun _ => 0, fun _ => 0⟩, fun _ => 0, fun _ => false,
    fun _ => false⟩

/-- Two blocks of an arena, which are freed in the order they were allocated in. -/
def sampleRequests : List HeapAction :=
  [.allocate 2 100 (some 0x20000), .allocate 2 200 none, .free 0x20028, .free 0x200b8]

theorem user_heap_right_of_fits_sample : ∃ s : HeapSystem,
    Reaches (HeapSystem.step .amd64) (fun s a => s.Promised .amd64 a ∧ Fits .amd64 a)
      (initial (sampleHeap 0x1000)) s ∧ s.mapped = [] ∧ s.live = [] ∧ s.Right .amd64 := by
  have hrn : (runChecked (HeapSystem.step .amd64)
      (fun s a => s.promisedTest .amd64 a && decide (Fits .amd64 a)) sampleRequests
      (initial (sampleHeap 0x1000))).map (fun s => (s.mapped, s.live)) = some ([], []) := by
    decide +kernel
  obtain ⟨s, hs, he⟩ := map_eq_some_iff.1 hrn
  obtain ⟨hp, hlv⟩ := Prod.mk.inj he
  have hc : Reaches (HeapSystem.step .amd64) (fun s a => s.Promised .amd64 a ∧ Fits .amd64 a)
      (initial (sampleHeap 0x1000)) s := by
    refine .of_runChecked (fun s a hok => ?_) hs
    rw [Bool.and_eq_true] at hok
    exact ⟨promised_of_test hok.1, of_decide_eq_true hok.2⟩
  exact ⟨s, hc, hp, hlv, user_heap_right_of_fits (by decide) hc⟩

/-- An arena, then a request whose region comes out as 8 bytes. -/
def wrappingRequests : List HeapAction :=
  [.allocate 2 16 (some 0x20000), .allocate 2 (2 ^ 64 - 32) (some 0x10000)]

theorem Right.confined (hr : s.Right t) (hm : n + headerSize t ∈ s.live) {q : Nat × Nat}
    (hq : q ∈ s.mapped) (hlo : n < q.1 + q.2) (hh : q.1 < n + headerSize t + s.heap.blockSize n) :
    q.1 ≤ n := by
  obtain ⟨tiles, hr⟩ := hr
  obtain ⟨a, ha, -, heq⟩ := (hr.live _).1 hm
  obtain rfl : n = a := Nat.add_right_cancel heq
  exact (hr.confined n ha q hq hlo hh).1

theorem user_heap_block_over_regions : ¬ ∀ s : HeapSystem,
    Reaches (HeapSystem.step .amd64) (fun s a => s.Promised .amd64 a)
      (initial (sampleHeap 0x1000)) s → s.Right .amd64 := by
  intro ha
  have hrn : (runChecked (HeapSystem.step .amd64) (promisedTest .amd64) wrappingRequests
      (initial (sampleHeap 0x1000))).map (fun s => (s.mapped, s.live, s.heap.blockSize 0x10000)) =
      some ([(0x10000, 8), (0x20000, 0x20000)], [0x10028, 0x20028], 2 ^ 62 - 32) := by
    decide +kernel
  obtain ⟨s, hs, he⟩ := map_eq_some_iff.1 hrn
  simp only [Prod.mk.injEq] at he
  obtain ⟨hp, hlv, hsize⟩ := he
  have hrg := ha s (.of_runChecked (fun _ _ => promised_of_test) hs)
  have hle := hrg.confined (n := 0x10000) (q := (0x20000, 0x20000)) (by rw [hlv]; decide)
    (by rw [hp]; decide) (by decide) (by rw [hsize]; decide)
  revert hle
  decide

end HeapSystem

end Boron.Os
