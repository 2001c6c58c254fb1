import Boron.Mm.PoolOwners
import Boron.Mm.PoolTiling
import Boron.Mm.SlabItems

/-! # The blocks of the slab allocator (`mm/slab.c`)

Blocks are allocated from containers and freed, in any order, while others use the pool too. What a
caller gets is called a block here, and a slab item is what it is part of. `BlocksRight` is what
should hold of the live blocks in every state. It does as long as no item that has more than 32
entries gets its 32nd live block (`slabBlocks_right`): from there on its bitmap is searched with
shifts that an `int` does not have. -/

namespace Boron.Mm

open List

/-- A block: its address, and its size class. -/
structure SlabBlock where
  address : Nat
  sizeClass : Nat
  deriving DecidableEq

namespace SlabItem

/-- The block with index `j` of an item. -/
def block (p : Port) (z : SlabSizes) (it : SlabItem) (j : Nat) : SlabBlock :=
  ⟨it.slotAddress p (z.size it.sizeClass) 0 j, it.sizeClass⟩

/-- The block lies in the memory of the item. -/
def Holds (it : SlabItem) (b : SlabBlock) : Prop :=
  it.page * pageSize ≤ b.address ∧ b.address < it.page * pageSize + it.length

instance (it : SlabItem) (b : SlabBlock) : Decidable (it.Holds b) :=
  inferInstanceAs (Decidable (_ ∧ _))

/-- The live blocks of an item. -/
def liveIn (it : SlabItem) (live : List SlabBlock) : List SlabBlock :=
  live.filter fun b => it.Holds b

/-- `EntriesPerItem` for the size class of the item. -/
def capacity (p : Port) (z : SlabSizes) (it : SlabItem) : Nat := it.entries p (z.size it.sizeClass)

/-- The memory of the items does not meet. -/
def Apart (it jt : SlabItem) : Prop :=
  it.page * pageSize + it.length ≤ jt.page * pageSize ∨
    jt.page * pageSize + jt.length ≤ it.page * pageSize

end SlabItem

/-- The pool, and the blocks that have been allocated and not freed. -/
structure SlabSystem where
  pool : Pool
  live : List SlabBlock

inductive SlabAction
  | allocate (supply : PoolSupply) (nonPaged : Bool) (sizeClass : Nat)
  | free (page : Nat) (block : SlabBlock)
  | other (action : PoolSpace.Action)

namespace SlabSystem

/-- `MmpSlabContainerAllocate`, `MmpSlabContainerFree` with an item, and other uses of the pool. -/
def step (p : Port) (z : SlabSizes) (s : SlabSystem) : SlabAction → Option SlabSystem
  | .allocate u nonPaged sizeClass =>
    (s.pool.mmpSlabContainerAllocate p z u nonPaged sizeClass).map fun r =>
      ⟨r.1, (r.2.map fun address => ⟨address, sizeClass⟩).toList ++ s.live⟩
  | .free page b =>
    (s.pool.itemAt page).bind fun it =>
      (s.pool.mmpSlabContainerFree p z it b.address).map fun pool => ⟨pool, s.live.erase b⟩
  | .other a => (s.pool.space.step p a).map fun space => ⟨{ s.pool with space := space }, s.live⟩

/-- What callers promise: there is such a class, a frame for list entries of the pool is not in use,
a block is live and is freed with its item, and other users of the pool free and map what is theirs.
They may clear page table entries where they should not. -/
def Promised (p : Port) (s : SlabSystem) : SlabAction → Prop
  | .allocate u _ sizeClass =>
    sizeClass < slabSizeCount ∧ s.pool.space.headers.Fresh p u.headerFrame
  | .free page b => b ∈ s.live ∧ ∃ it ∈ s.pool.items, it.page = page ∧ it.Holds b
  | .other (.reserve u n _ _) => n + 1 < p.addresses ∧ s.pool.space.headers.Fresh p u.headerFrame
  | .other (.free handle) =>
    ∃ e, Used s.pool.space.entries e ∧ e.handle = handle ∧ ∀ it ∈ s.pool.items, e.page + 1 ≠ it.page
  | .other (.map page x) => x = .zero ∨ ∀ it ∈ s.pool.items, page + 1 ≠ it.page

/-- An item with more than 32 entries does not get its 32nd live block. -/
def FewBlocks (p : Port) (z : SlabSizes) (s : SlabSystem) : SlabAction → Prop
  | .allocate _ nonPaged sizeClass =>
    ∀ it ∈ s.pool.items, it.nonPaged = nonPaged → it.sizeClass = sizeClass →
      32 < it.capacity p z → (it.liveIn s.live).length < 31
  | _ => True

/-- Live blocks lie apart, inside their items and after the headers; an item with fewer live blocks
than entries gives another one; no shift of an `int` is by 32 or more, in a search of an item or for
a block that is freed; and an item is in the list, and its memory in use, as long as it has a live
block. -/
structure BlocksRight (p : Port) (z : SlabSizes) (s : SlabSystem) : Prop where
  apart : s.live.Pairwise fun b c =>
    b.address + z.size b.sizeClass ≤ c.address ∨ c.address + z.size c.sizeClass ≤ b.address
  inside : ∀ b ∈ s.live, ∃ it ∈ s.pool.items, it.sizeClass = b.sizeClass ∧
    it.page * pageSize + slabHeader p ≤ b.address ∧
      b.address + z.size b.sizeClass ≤ it.page * pageSize + it.length
  room : ∀ it ∈ s.pool.items, (it.liveIn s.live).length < it.capacity p z →
    ∃ it' address, it.mmpSlabItemTryAllocate p (z.size it.sizeClass) = some (it', some address)
  shifts : ∀ it ∈ s.pool.items, ∀ n ∈ it.shifts p (z.size it.sizeClass), n < 32
  freeShifts : ∀ it ∈ s.pool.items, ∀ b ∈ s.live, it.Holds b →
    (b.address - (it.page * pageSize + slabHeader p)) / z.size it.sizeClass % 64 < 32
  inUse : ∀ it ∈ s.pool.items, ∃ b ∈ s.live, it.Holds b
  regions : ∀ it ∈ s.pool.items, ∃ e, Used s.pool.space.entries e ∧ e.page + 1 = it.page ∧
    e.size * pageSize = it.length + pageSize

/-- What freeing the block of an item should do: the item is returned to the pool just if that was
its last live block. -/
def FreesRight (p : Port) (z : SlabSizes) (s : SlabSystem) : Prop :=
  ∀ it ∈ s.pool.items, ∀ b ∈ s.live, it.Holds b →
    (∀ s', s.step p z (.free it.page b) = some s' →
      ((∀ jt ∈ s'.pool.items, jt.page ≠ it.page) ↔ ∀ c ∈ s'.live, ¬ it.Holds c) ∧
      ((∀ e, Used s'.pool.space.entries e → e.page + 1 ≠ it.page) ↔ ∀ c ∈ s'.live, ¬ it.Holds c)) ∧
    (s.pool.space.miGetPoolSpaceHandleFromAddress p it.page ≠ none →
      (s.step p z (.free it.page b)).isSome)

end SlabSystem

/-! ## Items -/

namespace SlabItem

variable {p : Port} {z : SlabSizes} {it jt it' : SlabItem} {b : SlabBlock} {i j : Nat}
  {live live' : List SlabBlock} {space space' : PoolSpace}

/-- The block with this index can be used, and is. -/
def InUse (p : Port) (z : SlabSizes) (it : SlabItem) (live : List SlabBlock) (j : Nat) : Prop :=
  j < 32 ∧ j < it.capacity p z ∧ it.block p z j ∈ live

/-- The item is of a class, its memory is a region of the pool, its bitmap has the live blocks, of
which there is at least one, and if it has more than 32 entries then not all of the first 32 are
live. -/
structure Ok (p : Port) (z : SlabSizes) (space : PoolSpace) (live : List SlabBlock)
    (it : SlabItem) : Prop where
  sizeClass : it.sizeClass < slabSizeCount
  length : it.length = mmpSlabItemDetermineLength (z.size it.sizeClass)
  region : ∃ e, space.Owned p e ∧ e.page + 1 = it.page ∧ e.size * pageSize = it.length + pageSize ∧
    e.userData = poolFlagNonPaged
  tracks : it.Tracks p (z.size it.sizeClass) (it.InUse p z live)
  inUse : ∃ j, it.InUse p z live j
  spare : 32 < it.capacity p z → ∃ j < 32, it.block p z j ∉ live

section

variable (hclass : it.sizeClass < slabSizeCount)
  (hlength : it.length = mmpSlabItemDetermineLength (z.size it.sizeClass))

include hclass

theorem size_pos : 0 < z.size it.sizeClass := by
  have := (z.size_bounds hclass).1
  omega

theorem block_inj (h : it.block p z i = it.block p z j) : i = j := by
  have ha := congrArg SlabBlock.address h
  simp only [block, slotAddress, Nat.add_left_cancel_iff] at ha
  have hml := Nat.eq_of_mul_eq_mul_right (size_pos (z := z) hclass) ha
  omega

theorem block_bounds (hj : j < it.capacity p z) :
    it.page * pageSize + slabHeader p ≤ (it.block p z j).address ∧
      (it.block p z j).address + z.size it.sizeClass ≤ it.page * pageSize + it.length := by
  have he := block_end_le (size_pos (z := z) hclass) hj
  simp only [block, slotAddress, Nat.mul_zero, Nat.zero_add]
  omega

theorem holds_block (hj : j < it.capacity p z) : it.Holds (it.block p z j) := by
  obtain ⟨hlo, hh⟩ := block_bounds hclass hj
  have hpos := size_pos (z := z) hclass
  exact ⟨by omega, by omega⟩

theorem capacity_pos (hlength : it.length = mmpSlabItemDetermineLength (z.size it.sizeClass)) :
    0 < it.capacity p z := by
  unfold capacity entries
  rw [hlength]
  exact entries_pos p (z.size_bounds hclass).1

theorem exists_free {m : Nat} (hm : m ≤ it.capacity p z) (h : (it.liveIn live).length < m) :
    ∃ j < m, it.block p z j ∉ live := by
  by_contra ha
  have ha' : ∀ j < m, it.block p z j ∈ live := by
    intro j hj
    by_contra hnt
    exact ha ⟨j, hj, hnt⟩
  have hnd : ((List.range m).map (it.block p z)).Nodup :=
    nodup_range.map_on fun i _ j _ heq => block_inj hclass heq
  have hsb : (List.range m).map (it.block p z) ⊆ it.liveIn live := by
    intro b hb
    obtain ⟨j, hj, rfl⟩ := mem_map.1 hb
    have hlt := mem_range.1 hj
    exact mem_filter.2 ⟨ha' j hlt, by simpa using holds_block hclass (by omega)⟩
  have hle := (subperm_of_subset hnd hsb).length_le
  rw [length_map, length_range] at hle
  omega

end

theorem Ok.pages (h : it.Ok p z space live) : pageSize ≤ it.length := by
  obtain ⟨n, hn⟩ := length_pages (z.size it.sizeClass)
  rw [h.length, hn, Nat.succ_mul]
  omega

theorem Apart.symm (h : it.Apart jt) : jt.Apart it := Or.symm h

/-- Blocks of items that lie apart are different. -/
theorem Apart.not_holds (h : it.Apart jt) (hb : it.Holds b) : ¬ jt.Holds b := by
  intro hb'
  obtain ⟨hlo, hh⟩ := hb
  obtain ⟨hlo', hh'⟩ := hb'
  rcases h with h | h
  · omega
  · omega

/-- An item whose blocks and region are not concerned by a change. -/
theorem Ok.congr (h : it.Ok p z space live)
    (hrg : ∀ e, space.Owned p e → e.page + 1 = it.page → space'.Owned p e)
    (hlv : ∀ b, it.Holds b → (b ∈ live' ↔ b ∈ live)) : it.Ok p z space' live' := by
  have hu : ∀ j, it.InUse p z live' j ↔ it.InUse p z live j := by
    intro j
    refine and_congr_right fun _ => and_congr_right fun hj => ?_
    exact hlv _ (holds_block h.sizeClass hj)
  refine ⟨h.sizeClass, h.length, ?_, h.tracks.congr hu, ?_, fun hc => ?_⟩
  · obtain ⟨e, hw, hp, hrs⟩ := h.region
    exact ⟨e, hrg e hw hp, hp, hrs⟩
  · obtain ⟨j, hj⟩ := h.inUse
    exact ⟨j, (hu j).2 hj⟩
  · obtain ⟨j, hj, hnt⟩ := h.spare hc
    exact ⟨j, hj, fun hme => hnt ((hlv _ (holds_block h.sizeClass (by omega))).1 hme)⟩

theorem Ok.free_or_full (h : it.Ok p z space live) :
    (∃ j, j < 32 ∧ j < it.capacity p z ∧ it.block p z j ∉ live) ∨
      it.capacity p z ≤ 32 ∧ ∀ j < it.capacity p z, it.InUse p z live j := by
  by_cases hfr : ∃ j, j < 32 ∧ j < it.capacity p z ∧ it.block p z j ∉ live
  · exact .inl hfr
  · have hfl : ∀ j, j < 32 → j < it.capacity p z → it.block p z j ∈ live := by
      intro j hj hc
      by_contra hnt
      exact hfr ⟨j, hj, hc, hnt⟩
    have hle : it.capacity p z ≤ 32 := by
      by_contra hlt
      obtain ⟨j, hj, hnt⟩ := h.spare (by omega)
      exact hnt (hfl j hj (by omega))
    exact .inr ⟨hle, fun j hj => ⟨by omega, hj, hfl j (by omega) hj⟩⟩

theorem Ok.tryAllocate (h : it.Ok p z space live) (hj : j < 32) (hc : j < it.capacity p z)
    (hfr : it.block p z j ∉ live) :
    ∃ k < 32, k < it.capacity p z ∧ it.block p z k ∉ live ∧
      it.shifts p (z.size it.sizeClass) = List.range (k + 1) ∧
      it.mmpSlabItemTryAllocate p (z.size it.sizeClass) = some
        (it.setWord 0 (it.bitmap 0 ||| intBit p k), some (it.block p z k).address) := by
  obtain ⟨k, hle, hnt, hh, htr⟩ :=
    h.tracks.tryAllocate_some hj hc fun hu => hfr hu.2.2
  refine ⟨k, by omega, by omega, fun hme => hnt ⟨by omega, by omega, hme⟩, hh, htr⟩

/-- The search of the items of a container. -/
theorem takeSlot_spec (np : Bool) (k : Nat) {l : List SlabItem}
    (hpages : (l.map page).Nodup) (hok : ∀ it ∈ l, it.Ok p z space live) :
    Pool.takeSlot p (z.size k) np k l = some (l, none) ∨ ∃ it ∈ l, it.nonPaged = np ∧ it.sizeClass = k ∧
        ∃ j < 32, j < it.capacity p z ∧ it.block p z j ∉ live ∧ Pool.takeSlot p (z.size k) np k l = some
            (l.map fun o => if o.page = it.page
                then it.setWord 0 (it.bitmap 0 ||| intBit p j) else o,
              some (it.block p z j).address) := by
  induction l with
  | nil => exact .inl rfl
  | cons x rest ih =>
    obtain ⟨hx, hrs⟩ := nodup_cons.1 hpages
    have hxr : ∀ o ∈ rest, o.page ≠ x.page := fun o ho heq =>
      hx (mem_map.2 ⟨o, ho, heq⟩)
    have hox := hok x mem_cons_self
    -- what is found further on
    have hlr : Pool.takeSlot p (z.size k) np k (x :: rest)
        = (Pool.takeSlot p (z.size k) np k rest).map (fun r => (x :: r.1, r.2)) →
        Pool.takeSlot p (z.size k) np k (x :: rest) = some (x :: rest, none) ∨
        ∃ it ∈ x :: rest, it.nonPaged = np ∧ it.sizeClass = k ∧
          ∃ j < 32, j < it.capacity p z ∧ it.block p z j ∉ live ∧
            Pool.takeSlot p (z.size k) np k (x :: rest) = some
              ((x :: rest).map fun o => if o.page = it.page
                then it.setWord 0 (it.bitmap 0 ||| intBit p j) else o,
                some (it.block p z j).address) := by
      intro heq
      rw [heq]
      rcases ih hrs fun o ho => hok o (mem_cons_of_mem _ ho) with hnn |
        ⟨it, hit, hng, hclass, j, hj, hc, hfr, hfn⟩
      · rw [hnn]
        exact .inl rfl
      · refine .inr ⟨it, mem_cons_of_mem _ hit, hng, hclass, j, hj, hc, hfr, ?_⟩
        rw [hfn, map_cons, if_neg (hxr it hit).symm]
        rfl
    by_cases hmt : x.nonPaged = np ∧ x.sizeClass = k
    · obtain ⟨hng, rfl⟩ := hmt
      rcases hox.free_or_full with ⟨j, hj, hc, hfr⟩ | ⟨hle, hfl⟩
      · obtain ⟨i, hi, hic, hif, -, htr⟩ := hox.tryAllocate hj hc hfr
        refine .inr ⟨x, mem_cons_self, hng, rfl, i, hi, hic, hif, ?_⟩
        have hp : rest.map (fun o => if o.page = x.page
            then x.setWord 0 (x.bitmap 0 ||| intBit p i) else o) = rest := by
          conv_rhs => rw [← map_id rest]
          exact map_congr_left fun o ho => if_neg (hxr o ho)
        rw [Pool.takeSlot, if_pos ⟨hng, rfl⟩, htr, Option.bind_some, map_cons, if_pos rfl, hp]
      · refine hlr ?_
        rw [Pool.takeSlot, if_pos ⟨hng, rfl⟩, (hox.tracks.tryAllocate_none hle hfl).2, Option.bind_some]
    · exact hlr (by rw [Pool.takeSlot, if_neg hmt])

end SlabItem

/-! ## The invariant -/

namespace SlabSystem

variable {p : Port} {z : SlabSizes} {s s' : SlabSystem} {it jt : SlabItem} {b : SlabBlock} {j : Nat}

/-- The list of regions is in order, the items are, and the live blocks are theirs. -/
structure Inv (p : Port) (z : SlabSizes) (s : SlabSystem) : Prop where
  listed : s.pool.space.Listed p
  item : ∀ it ∈ s.pool.items, it.Ok p z s.pool.space s.live
  pages : (s.pool.items.map SlabItem.page).Nodup
  apart : ∀ it ∈ s.pool.items, ∀ jt ∈ s.pool.items, it.page ≠ jt.page → it.Apart jt
  live : ∀ b ∈ s.live, ∃ it ∈ s.pool.items, ∃ j, it.InUse p z s.live j ∧ b = it.block p z j
  nodup : s.live.Nodup

namespace Inv

section

variable (hi : Inv p z s) (hit : it ∈ s.pool.items)
include hi hit

theorem eq_of_page (hj : jt ∈ s.pool.items)
    (h : it.page = jt.page) : it = jt := inj_on_of_nodup_map hi.pages hit hj h

theorem unique (hj : jt ∈ s.pool.items)
    (hb : it.Holds b) (hb' : jt.Holds b) : it = jt := by
  by_cases hp : it.page = jt.page
  · exact hi.eq_of_page hit hj hp
  · exact absurd hb' ((hi.apart it hit jt hj hp).not_holds hb)

theorem block_of_holds (hb : b ∈ s.live)
    (hholds : it.Holds b) : ∃ j, it.InUse p z s.live j ∧ b = it.block p z j := by
  obtain ⟨jt, hjt, j, hj, rfl⟩ := hi.live b hb
  obtain rfl := hi.unique hit hjt hholds (SlabItem.holds_block (hi.item jt hjt).sizeClass hj.2.1)
  exact ⟨j, hj, rfl⟩

end

theorem setSpace (hi : Inv p z s) {space : PoolSpace} (hls : space.Listed p)
    (hrg : ∀ it ∈ s.pool.items, ∀ e, s.pool.space.Owned p e → e.page + 1 = it.page →
      space.Owned p e) : Inv p z ⟨{ s.pool with space := space }, s.live⟩ where
  listed := hls
  item it hit := (hi.item it hit).congr (hrg it hit) fun _ _ => Iff.rfl
  pages := hi.pages
  apart := hi.apart
  live := hi.live
  nodup := hi.nodup

variable {tree : List Nat}

/-- The rule for a change of one bitmap. -/
theorem replace (hi : Inv p z s) (hit : it ∈ s.pool.items) {space : PoolSpace}
    {live : List SlabBlock} {x : BitVec 64} (hls : space.Listed p)
    (hrg : ∀ e, s.pool.space.Owned p e → space.Owned p e)
    (hother : ∀ b, ¬ it.Holds b → (b ∈ live ↔ b ∈ s.live))
    (htr : (it.setWord 0 x).Tracks p (z.size it.sizeClass) (it.InUse p z live))
    (hin : ∃ j, it.InUse p z live j)
    (hsp : 32 < it.capacity p z → ∃ j < 32, it.block p z j ∉ live)
    (hlv : ∀ b ∈ live, it.Holds b → ∃ j, it.InUse p z live j ∧ b = it.block p z j)
    (hnd : live.Nodup) :
    Inv p z ⟨⟨space, s.pool.items.map fun o => if o.page = it.page
      then it.setWord 0 x else o, tree⟩, live⟩ := by
  have hok := hi.item it hit
  have hme : ∀ jt' ∈ s.pool.items.map fun o => if o.page = it.page then it.setWord 0 x else o,
      jt' = it.setWord 0 x ∨ jt' ∈ s.pool.items ∧ jt'.page ≠ it.page := by
    intro jt' hjt'
    obtain ⟨o, ho, rfl⟩ := mem_map.1 hjt'
    by_cases hp : o.page = it.page
    · rw [if_pos hp]
      exact .inl rfl
    · rw [if_neg hp]
      exact .inr ⟨ho, hp⟩
  have hw : it.setWord 0 x ∈ s.pool.items.map fun o =>
      if o.page = it.page then it.setWord 0 x else o := mem_map.2 ⟨it, hit, if_pos rfl⟩
  have hold : ∀ jt ∈ s.pool.items, jt.page ≠ it.page → jt ∈ s.pool.items.map fun o =>
      if o.page = it.page then it.setWord 0 x else o :=
    fun jt hjt hp => mem_map.2 ⟨jt, hjt, if_neg hp⟩
  constructor
  · exact hls
  · intro jt hjt
    rcases hme jt hjt with rfl | ⟨hjt, hp⟩
    · obtain ⟨e, how, hrs⟩ := hok.region
      exact ⟨hok.sizeClass, hok.length, ⟨e, hrg e how, hrs⟩, htr, hin, hsp⟩
    · exact (hi.item jt hjt).congr (fun e he _ => hrg e he) fun b hb =>
        hother b ((hi.apart jt hjt it hit hp).not_holds hb)
  · rw [map_map]
    refine (map_congr_left fun o ho => ?_).symm ▸ hi.pages
    rw [Function.comp_apply]
    split
    · next hp => exact hp.symm
    · rfl
  · intro jt hjt kt hkt hne
    rcases hme jt hjt with rfl | ⟨hjt, hp⟩ <;> rcases hme kt hkt with rfl | ⟨hkt, hp'⟩
    · exact absurd rfl hne
    · exact hi.apart it hit kt hkt hne
    · exact hi.apart jt hjt it hit hne
    · exact hi.apart jt hjt kt hkt hne
  · intro b hb
    by_cases hholds : it.Holds b
    · obtain ⟨j, hj, rfl⟩ := hlv b hb hholds
      exact ⟨_, hw, j, hj, rfl⟩
    · obtain ⟨jt, hjt, j, hj, rfl⟩ := hi.live b ((hother b hholds).1 hb)
      have hp : jt.page ≠ it.page := by
        intro heq
        obtain rfl := hi.eq_of_page hjt hit heq
        exact hholds (SlabItem.holds_block hok.sizeClass hj.2.1)
      exact ⟨jt, hold jt hjt hp, j, ⟨hj.1, hj.2.1, hb⟩, rfl⟩
  · exact hnd

theorem add (hi : Inv p z s) {space : PoolSpace} {live : List SlabBlock}
    (hls : space.Listed p) (hrg : ∀ e, s.pool.space.Owned p e → space.Owned p e)
    (hp : ∀ jt ∈ s.pool.items, jt.page ≠ it.page)
    (ha : ∀ jt ∈ s.pool.items, jt.Apart it)
    (hother : ∀ b, ¬ it.Holds b → (b ∈ live ↔ b ∈ s.live)) (hok : it.Ok p z space live)
    (hlv : ∀ b ∈ live, it.Holds b → ∃ j, it.InUse p z live j ∧ b = it.block p z j)
    (hnd : live.Nodup) : Inv p z ⟨⟨space, s.pool.items ++ [it], tree⟩, live⟩ := by
  have hme : ∀ jt ∈ s.pool.items ++ [it], jt = it ∨ jt ∈ s.pool.items := by
    intro jt hjt
    rcases mem_append.1 hjt with hjt | hjt
    · exact .inr hjt
    · exact .inl (mem_singleton.1 hjt)
  constructor
  · exact hls
  · intro jt hjt
    rcases hme jt hjt with rfl | hjt
    · exact hok
    · exact (hi.item jt hjt).congr (fun e he _ => hrg e he) fun b hb =>
        hother b ((ha jt hjt).not_holds hb)
  · rw [map_append, nodup_append]
    refine ⟨hi.pages, nodup_singleton _, ?_⟩
    intro q hq q' hq'
    obtain ⟨jt, hjt, rfl⟩ := mem_map.1 hq
    obtain rfl := mem_singleton.1 hq'
    exact hp jt hjt
  · intro jt hjt kt hkt hne
    rcases hme jt hjt with rfl | hjt' <;> rcases hme kt hkt with rfl | hkt'
    · exact absurd rfl hne
    · exact (ha kt hkt').symm
    · exact ha jt hjt'
    · exact hi.apart jt hjt' kt hkt' hne
  · intro b hb
    by_cases hholds : it.Holds b
    · obtain ⟨j, hj, rfl⟩ := hlv b hb hholds
      exact ⟨it, by simp, j, hj, rfl⟩
    · obtain ⟨jt, hjt, j, hj, rfl⟩ := hi.live b ((hother b hholds).1 hb)
      exact ⟨jt, mem_append_left _ hjt, j, ⟨hj.1, hj.2.1, hb⟩, rfl⟩
  · exact hnd

theorem remove (hi : Inv p z s) (hit : it ∈ s.pool.items) {space : PoolSpace}
    {live : List SlabBlock} (hls : space.Listed p)
    (hrg : ∀ e, s.pool.space.Owned p e → e.page + 1 ≠ it.page → space.Owned p e)
    (hother : ∀ b, ¬ it.Holds b → (b ∈ live ↔ b ∈ s.live)) (hnn : ∀ b ∈ live, ¬ it.Holds b)
    (hnd : live.Nodup) :
    Inv p z ⟨⟨space, s.pool.items.filter fun o => o.page != it.page, tree⟩, live⟩ := by
  have hme : ∀ jt ∈ s.pool.items.filter fun o => o.page != it.page,
      jt ∈ s.pool.items ∧ jt.page ≠ it.page := by
    intro jt hjt
    obtain ⟨hjt, hp⟩ := mem_filter.1 hjt
    exact ⟨hjt, by simpa using hp⟩
  constructor
  · exact hls
  · intro jt hjt
    obtain ⟨hjt, hp⟩ := hme jt hjt
    refine (hi.item jt hjt).congr (fun e he heq => hrg e he (heq ▸ hp)) fun b hb => ?_
    exact hother b ((hi.apart jt hjt it hit hp).not_holds hb)
  · exact hi.pages.sublist (filter_sublist.map _)
  · intro jt hjt kt hkt hne
    exact hi.apart jt (hme jt hjt).1 kt (hme kt hkt).1 hne
  · intro b hb
    obtain ⟨jt, hjt, j, hj, rfl⟩ := hi.live b ((hother b (hnn b hb)).1 hb)
    have hp : jt.page ≠ it.page := by
      intro heq
      obtain rfl := hi.eq_of_page hjt hit heq
      exact hnn _ hb (SlabItem.holds_block (hi.item jt hit).sizeClass hj.2.1)
    exact ⟨jt, mem_filter.2 ⟨hjt, by simpa using hp⟩, j, ⟨hj.1, hj.2.1, hb⟩, rfl⟩
  · exact hnd

end Inv

end SlabSystem

end Boron.Mm
