import Boron.Os.UserHeapBlocks
import Mathlib.Data.List.Chain

/-! # The regions of a user heap

A layout gives the mapped regions and the blocks in each of them. `Region.Ok` holds at every stage of
a call; `Settled` says what a call restores before it returns. The two rules below are those for a
region that serves a request and for one that a block is freed in. -/

namespace Boron.Os

open List

open Rtl (Target)

/-- A mapped region and its blocks. An arena has many; any other region is one block. -/
structure Region where
  start : Nat
  size : Nat
  arena : Bool
  blocks : List HeapBlock

/-- The address behind the region. -/
def Region.stop (r : Region) : Nat := r.start + r.size

/-- The blocks of a layout. -/
def layoutBlocks (lay : List Region) : List HeapBlock := lay.flatMap (·.blocks)

/-- The first address behind the user space, `MM_USER_SPACE_END + 1`. -/
def userSpaceEnd : Target → Nat
  | .amd64 => 0x800000000000
  | .i386 => 0x80000000
  | .arm => 0x80000000

/-- No two neighbours are both free. -/
def Apart (bs : List HeapBlock) : Prop := bs.IsChain fun b c => ¬ (b.free = true ∧ c.free = true)

section

variable (t : Target)

/-- The blocks follow on one another, from `a` to `z`. -/
def Chained : Nat → List HeapBlock → Nat → Prop
  | a, [], z => a = z
  | a, b :: bs, z => b.addr = a ∧ Chained (b.past t) bs z

structure Region.Ok (r : Region) : Prop where
  chained : Chained t r.start r.blocks r.stop
  aligned : ∀ b ∈ r.blocks, 8 ∣ b.addr
  starts : ∀ b ∈ r.blocks, (b.arenaStart = true ↔ r.arena = true ∧ b.addr = r.start)
  used : ∀ b ∈ r.blocks, b.free = false → b.mapped = !r.arena
  arenaSize : r.arena = true → r.size = defaultArenaSize
  single : r.arena = false → ∃ b, r.blocks = [b]

/-- Free neighbours are merged, and some block is in use. -/
structure Region.Settled (r : Region) : Prop where
  apart : Apart r.blocks
  live : ∃ b ∈ r.blocks, b.free = false

/-- The regions are in the user space, do not overlap and do not hold the heap itself. -/
structure LayoutOk (h : OsHeap) (lay : List Region) : Prop where
  ok : ∀ r ∈ lay, r.Ok t
  disjoint : lay.Pairwise fun r s => r.stop ≤ s.start ∨ s.stop ≤ r.start
  limit : ∀ r ∈ lay, r.stop ≤ userSpaceEnd t
  outside : ∀ r ∈ lay, ∀ a, r.start ≤ a → a < r.stop → a ≠ h.blockList ∧ a ≠ h.freeList

end

variable {t : Target} {h : OsHeap} {b c m : HeapBlock} {bs xs ys : List HeapBlock} {r r' : Region}
  {lay P Q : List Region} {a z : Nat}

/-! ## Sizes -/

theorem headerSize_pos (t : Target) : 0 < headerSize t := by cases t <;> decide

theorem eight_dvd_headerSize (t : Target) : 8 ∣ headerSize t := by cases t <;> decide

theorem userSpaceEnd_lt (t : Target) : userSpaceEnd t < 2 ^ t.wordBits := by cases t <;> decide

theorem userSpaceEnd_le_blockSize (t : Target) : userSpaceEnd t ≤ 2 ^ blockSizeBits t := by
  cases t <;> decide

theorem freeListEntry_lt (t : Target) : freeListEntry t < headerSize t := by cases t <;> decide

/-! ## Chains of blocks -/

theorem chained_append : Chained t a (xs ++ ys) z ↔ ∃ e, Chained t a xs e ∧ Chained t e ys z := by
  induction xs generalizing a with
  | nil => simp [Chained]
  | cons b xs ih => simp only [cons_append, Chained, ih, and_assoc, exists_and_left]

theorem chained_middle :
    Chained t a (xs ++ b :: ys) z ↔ Chained t a xs b.addr ∧ Chained t (b.past t) ys z := by
  rw [chained_append]
  constructor
  · rintro ⟨e, hx, rfl, hy⟩
    exact ⟨hx, hy⟩
  · rintro ⟨hx, hy⟩
    exact ⟨_, hx, rfl, hy⟩

theorem HeapBlock.lt_past (b : HeapBlock) : b.addr + freeListEntry t < b.past t := by
  have hlt := freeListEntry_lt t
  rw [HeapBlock.past]
  omega

theorem HeapBlock.addr_lt_past (t : Target) (b : HeapBlock) : b.addr < b.past t :=
  Nat.lt_of_le_of_lt (Nat.le_add_right _ _) b.lt_past

theorem Chained.le (hc : Chained t a bs z) : a ≤ z := by
  induction bs generalizing a with
  | nil => exact Nat.le_of_eq hc
  | cons b bs ih =>
    obtain ⟨rfl, hrs⟩ := hc
    exact (b.addr_lt_past t).le.trans (ih hrs)

theorem Chained.bounds (hc : Chained t a bs z) (hb : b ∈ bs) : a ≤ b.addr ∧ b.past t ≤ z := by
  obtain ⟨xs, ys, rfl⟩ := append_of_mem hb
  obtain ⟨hx, hy⟩ := chained_middle.1 hc
  exact ⟨hx.le, hy.le⟩

/-- A chain that ends where it begins is empty. -/
theorem Chained.eq_nil (hc : Chained t a bs a) : bs = [] := by
  cases bs with
  | nil => rfl
  | cons b bs =>
    obtain ⟨rfl, hrs⟩ := hc
    have hle := hrs.le
    have hlt := b.addr_lt_past t
    omega

/-- The other blocks of a chain end before a block begins, or begin where it ends or later. -/
theorem Chained.sides (hc : Chained t a (xs ++ b :: ys) z) (hme : c ∈ xs ++ ys) :
    c.past t ≤ b.addr ∨ b.past t ≤ c.addr := by
  obtain ⟨hx, hy⟩ := chained_middle.1 hc
  rcases mem_append.1 hme with hme | hme
  · exact .inl (hx.bounds hme).2
  · exact .inr (hy.bounds hme).1

theorem apart_middle : Apart (xs ++ b :: ys) ↔ (Apart xs ∧ Apart ys) ∧
    (b.free = true → (∀ x ∈ xs.getLast?, x.free = false) ∧ ∀ y ∈ ys.head?, y.free = false) := by
  simp only [Apart, isChain_append, isChain_cons, List.head?_cons, Option.mem_def,
    Option.some.injEq, forall_eq', not_and, Bool.not_eq_true]
  constructor
  · rintro ⟨hxs, ⟨hb, hys⟩, hx⟩
    refine ⟨⟨hxs, hys⟩, fun hfr => ⟨fun x hx' => ?_, fun y hy => hb y hy hfr⟩⟩
    by_contra hxf
    have := hx x hx' (by simpa using hxf)
    simp [hfr] at this
  · rintro ⟨⟨hxs, hys⟩, hb⟩
    refine ⟨hxs, ⟨fun y hy hfr => (hb hfr).2 y hy, hys⟩, fun x hx hxf => ?_⟩
    by_contra hfr
    have := (hb (by simpa using hfr)).1 x hx
    simp [hxf] at this

/-! ## Layouts -/

theorem layoutBlocks_middle (hr : r.blocks = xs ++ b :: ys) :
    layoutBlocks (P ++ r :: Q) = (layoutBlocks P ++ xs) ++ b :: (ys ++ layoutBlocks Q) := by
  simp [layoutBlocks, hr]

theorem mem_layoutBlocks : b ∈ layoutBlocks lay ↔ ∃ r ∈ lay, b ∈ r.blocks := by
  simp [layoutBlocks]

namespace LayoutOk

theorem mem (_ : LayoutOk t h (P ++ r :: Q)) : r ∈ P ++ r :: Q := by simp

/-- A region may take other blocks. -/
theorem replace (hl : LayoutOk t h (P ++ r :: Q)) (hr' : r'.Ok t) (hsr : r'.start = r.start)
    (hsize : r'.size = r.size) : LayoutOk t h (P ++ r' :: Q) := by
  have hst : r'.stop = r.stop := by rw [Region.stop, hsr, hsize, Region.stop]
  have hold : ∀ {s}, s ∈ P ++ r' :: Q → s = r' ∨ s ∈ P ++ r :: Q :=
    fun hs => (mem_middle.1 hs).imp id fun hs => mem_middle.2 (.inr hs)
  refine ⟨fun s hs => ?_, ?_, fun s hs => ?_, fun s hs => ?_⟩
  · rcases hold hs with rfl | hs
    · exact hr'
    · exact hl.ok s hs
  · have hd := hl.disjoint
    simp only [pairwise_append, pairwise_cons, mem_cons, forall_eq_or_imp] at hd ⊢
    rw [hsr, hst]
    exact hd
  · rcases hold hs with rfl | hs
    · exact hst ▸ hl.limit r hl.mem
    · exact hl.limit s hs
  · rcases hold hs with rfl | hs
    · rw [hsr, hst]
      exact hl.outside r hl.mem
    · exact hl.outside s hs

theorem drop (hl : LayoutOk t h (P ++ r :: Q)) : LayoutOk t h (P ++ Q) := by
  have hb : (P ++ Q).Sublist (P ++ r :: Q) := (sublist_cons_self r Q).append_left P
  exact ⟨fun s hs => hl.ok s (hb.subset hs), hl.disjoint.sublist hb,
    fun s hs => hl.limit s (hb.subset hs), fun s hs => hl.outside s (hb.subset hs)⟩

theorem congr {h' : OsHeap} (hl : LayoutOk t h lay) (hb : h'.blockList = h.blockList)
    (hfr : h'.freeList = h.freeList) : LayoutOk t h' lay :=
  ⟨hl.ok, hl.disjoint, hl.limit, by rw [hb, hfr]; exact hl.outside⟩

theorem past_le (hl : LayoutOk t h lay) (hr : r ∈ lay) (hb : b ∈ r.blocks) :
    b.past t ≤ userSpaceEnd t :=
  ((hl.ok r hr).chained.bounds hb).2.trans (hl.limit r hr)

theorem past_lt (hl : LayoutOk t h lay) (hr : r ∈ lay) (hb : b ∈ r.blocks) :
    b.past t < 2 ^ t.wordBits :=
  (hl.past_le hr hb).trans_lt (userSpaceEnd_lt t)

theorem size_lt (hl : LayoutOk t h lay) (hr : r ∈ lay) (hb : b ∈ r.blocks) :
    b.size < 2 ^ blockSizeBits t := by
  have hle := (hl.past_le hr hb).trans (userSpaceEnd_le_blockSize t)
  have hpos := headerSize_pos t
  rw [HeapBlock.past] at hle
  omega

/-- The regions other than `r` end before it begins, or begin where it ends or later. -/
theorem apart (hl : LayoutOk t h (P ++ r :: Q)) {s : Region} (hs : s ∈ P ++ Q) :
    s.stop ≤ r.start ∨ r.stop ≤ s.start := by
  have hmd : (P ++ r :: Q).Perm (r :: (P ++ Q)) := perm_middle
  have hp := hmd.pairwise_iff (R := fun r s : Region => r.stop ≤ s.start ∨ s.stop ≤ r.start)
    (fun h => h.symm)
  exact ((pairwise_cons.1 (hp.1 hl.disjoint)).1 s hs).symm

theorem fresh (hl : LayoutOk t h (P ++ r :: Q)) (hr : r.blocks = xs ++ b :: ys) (new : Nat)
    (hlo : b.addr < new) (hhi : new + headerSize t ≤ b.past t) (hw : 8 ∣ new) :
    Linked.Fresh t h (layoutBlocks (P ++ r :: Q)) new := by
  have hin : b ∈ r.blocks := by simp [hr]
  have hb := (hl.ok r hl.mem).chained.bounds hin
  have he := freeListEntry_lt t
  refine ⟨fun c hc => ?_, (hl.outside r hl.mem _ (by omega) (by omega)).1,
    (hl.outside r hl.mem _ (by omega) (by omega)).2, by omega⟩
  have hp := c.addr_lt_past t
  obtain ⟨s, hs, hcs⟩ := mem_layoutBlocks.1 hc
  rcases mem_middle.1 hs with rfl | hsm
  · have hh := (hl.ok s hl.mem).chained
    rw [hr] at hcs hh
    rcases mem_middle.1 hcs with rfl | hcs
    · omega
    · rcases hh.sides hcs with h' | h' <;> omega
  · have hc' := (hl.drop.ok s hsm).chained.bounds hcs
    rcases hl.apart hsm with h' | h' <;> omega

end LayoutOk

/-! ## Changing the blocks of a region -/

/-- What a region asks of each of its blocks. -/
structure Region.Fits (r : Region) (c : HeapBlock) : Prop where
  aligned : 8 ∣ c.addr
  starts : c.arenaStart = true ↔ r.arena = true ∧ c.addr = r.start
  used : c.free = false → c.mapped = !r.arena

namespace Region.Ok

theorem fits (hr : r.Ok t) (hb : b ∈ r.blocks) : r.Fits b :=
  ⟨hr.aligned b hb, hr.starts b hb, hr.used b hb⟩

/-- Some blocks of an arena may be replaced by others that take up the same bytes. -/
theorem change (old new : List HeapBlock) (hr : r.Ok t) (hb : r.blocks = xs ++ (old ++ ys))
    (hh : ∀ a z, Chained t a old z → Chained t a new z) (hft : ∀ c ∈ new, r.Fits c)
    (hsn : r.arena = false → ∃ b, xs ++ (new ++ ys) = [b]) :
    Region.Ok t { r with blocks := xs ++ (new ++ ys) } := by
  have ha : ∀ c ∈ xs ++ (new ++ ys), r.Fits c := by
    intro c hc
    simp only [mem_append] at hc
    rcases hc with hc | hc | hc
    · exact hr.fits (by simp [hb, hc])
    · exact hft c hc
    · exact hr.fits (by simp [hb, hc])
  refine ⟨?_, fun c hc => (ha c hc).aligned, fun c hc => (ha c hc).starts,
    fun c hc => (ha c hc).used, hr.arenaSize, hsn⟩
  have hold := hr.chained
  rw [hb, chained_append] at hold
  obtain ⟨e, hx, hrs⟩ := hold
  obtain ⟨f, hmd, hy⟩ := chained_append.1 hrs
  exact chained_append.2 ⟨e, hx, chained_append.2 ⟨f, hh _ _ hmd, hy⟩⟩

theorem setFree (hr : r.Ok t) (hbl : r.blocks = xs ++ b :: ys) {free mapped : Bool}
    (hp : free = false → mapped = !r.arena) :
    Region.Ok t { r with blocks := xs ++ { b with free, mapped } :: ys } := by
  have hb := hr.fits (by simp [hbl] : b ∈ r.blocks)
  refine hr.change [b] [{ b with free, mapped }] hbl (fun a z hc => hc) ?_ ?_
  · intro c hc
    obtain rfl := mem_singleton.1 hc
    exact ⟨hb.aligned, hb.starts, hp⟩
  · intro hlr
    obtain ⟨d, hd⟩ := hr.single hlr
    obtain ⟨rfl, rfl, rfl⟩ : xs = [] ∧ b = d ∧ ys = [] := by
      cases xs <;> simp_all
    exact ⟨_, rfl⟩

theorem split (hr : r.Ok t) (hbl : r.blocks = xs ++ b :: ys) (ha : r.arena = true)
    (hb : b.free = true) {n : Nat} (hn : 8 ∣ n) (hrm : n + headerSize t ≤ b.size) :
    Region.Ok t { r with blocks := xs ++ { b with size := n } ::
      ⟨b.addr + headerSize t + n, b.size - headerSize t - n, true, false, false⟩ :: ys } := by
  have hft := hr.fits (by simp [hbl] : b ∈ r.blocks)
  have hh := hr.chained
  rw [hbl] at hh
  have hlo := (hh.bounds (by simp : b ∈ xs ++ b :: ys)).1
  have hpos := headerSize_pos t
  refine hr.change [b] [{ b with size := n },
    ⟨b.addr + headerSize t + n, b.size - headerSize t - n, true, false, false⟩] hbl ?_ ?_ ?_
  · rintro a z ⟨rfl, hz⟩
    refine ⟨rfl, rfl, ?_⟩
    have he : b.past t = z := hz
    show b.addr + headerSize t + n + headerSize t + (b.size - headerSize t - n) = z
    rw [← he, HeapBlock.past]
    omega
  · intro c hc
    simp only [mem_cons, not_mem_nil, or_false] at hc
    rcases hc with rfl | rfl
    · exact ⟨hft.aligned, hft.starts, fun hu => absurd (hb.symm.trans hu) (by decide)⟩
    · refine ⟨?_, ?_, nofun⟩
      · exact Nat.dvd_add (Nat.dvd_add hft.aligned (eight_dvd_headerSize t)) hn
      · have hne : b.addr + headerSize t + n ≠ r.start := by omega
        simp [hne]
  · intro hlr
    rw [ha] at hlr
    cases hlr

theorem join (hr : r.Ok t) (hbl : r.blocks = xs ++ b :: c :: ys) (hb : b.free = true) :
    Region.Ok t { r with blocks := xs ++ { b with size := b.size + (headerSize t + c.size) } :: ys } := by
  have hft := hr.fits (by simp [hbl] : b ∈ r.blocks)
  refine hr.change [b, c] [{ b with size := b.size + (headerSize t + c.size) }] hbl ?_ ?_ ?_
  · rintro a z ⟨rfl, hc, hz⟩
    refine ⟨rfl, ?_⟩
    have he : c.past t = z := hz
    show b.addr + headerSize t + (b.size + (headerSize t + c.size)) = z
    rw [← he, HeapBlock.past, hc, HeapBlock.past]
    omega
  · intro d hd
    obtain rfl := mem_singleton.1 hd
    exact ⟨hft.aligned, hft.starts, fun hu => absurd (hb.symm.trans hu) (by decide)⟩
  · intro hlr
    obtain ⟨d, hd⟩ := hr.single hlr
    rw [hbl] at hd
    cases xs <;> simp at hd

theorem not_starts (hr : r.Ok t) (hb : r.blocks = xs ++ b :: ys) (hc : c ∈ ys) :
    c.arenaStart = false := by
  have hst := hr.starts c (by simp [hb, hc])
  have hh := hr.chained
  rw [hb] at hh
  obtain ⟨hx, hy⟩ := chained_middle.1 hh
  have hlo := hx.le
  have hhi := (hy.bounds hc).1
  have hlt := b.addr_lt_past t
  rw [Bool.eq_false_iff]
  intro htt
  have heq := (hst.1 htt).2
  omega

theorem starts_first (hr : r.Ok t) (hb : r.blocks = b :: ys) (ha : r.arena = true) :
    b.arenaStart = true := by
  have hc := hr.chained
  rw [hb] at hc
  exact (hr.starts b (by simp [hb])).2 ⟨ha, hc.1⟩

end Region.Ok

theorem head_starts (hok : ∀ r ∈ lay, r.Ok t) (hlv : ∀ r ∈ lay, ∃ b ∈ r.blocks, b.free = false)
    (hc : c ∈ (layoutBlocks lay).head?) (hfr : c.free = true) : c.arenaStart = true := by
  cases lay with
  | nil => simp [layoutBlocks] at hc
  | cons r lay =>
    obtain ⟨b, hb, hbf⟩ := hlv r (by simp)
    obtain ⟨d, ds, hbl⟩ := exists_cons_of_ne_nil (ne_nil_of_mem hb)
    obtain rfl : d = c := by simpa [layoutBlocks, hbl] using hc
    have hr := hok r (by simp)
    cases ha : r.arena with
    | true => exact hr.starts_first hbl ha
    | false =>
      obtain ⟨e, he⟩ := hr.single ha
      rw [he] at hb hbl
      obtain rfl := mem_singleton.1 hb
      obtain rfl : b = d := by simpa using (cons.inj hbl).1
      rw [hfr] at hbf
      cases hbf

end Boron.Os
