import Boron.Os.UserHeapLayout

/-! # The calls on a user heap

What a request and a freed block do to the blocks of one region. `Reblocked` keeps the other regions
out of sight: the heap has the layout it had, but for the blocks of that region. -/

namespace Boron.Os

open List

open Rtl (Target)

section

variable (t : Target)

/-- The pointers to the blocks in use. -/
def pointers (bs : List HeapBlock) : List Nat :=
  (bs.filter (!·.free)).map (·.addr + headerSize t)

/-- A heap whose region `r` has the blocks `bs` instead of its own. -/
structure Reblocked (h h' : OsHeap) (P : List Region) (r : Region) (Q : List Region)
    (bs : List HeapBlock) : Prop where
  blockList : h'.blockList = h.blockList
  freeList : h'.freeList = h.freeList
  linked : Linked t h' (layoutBlocks (P ++ { r with blocks := bs } :: Q))
  ok : Region.Ok t { r with blocks := bs }

end

variable {t : Target} {h h' : OsHeap} {b c : HeapBlock} {bs xs ys : List HeapBlock} {r : Region}
  {P Q : List Region} {n : Nat}

theorem pointers_append : pointers t (xs ++ ys) = pointers t xs ++ pointers t ys := by
  simp [pointers]

theorem pointers_free (hb : b.free = true) : pointers t (b :: bs) = pointers t bs := by
  simp [pointers, hb]

theorem pointers_used (hb : b.free = false) :
    pointers t (b :: bs) = (b.addr + headerSize t) :: pointers t bs := by
  simp [pointers, hb]

theorem mem_pointers {p : Nat} :
    p ∈ pointers t bs ↔ ∃ b ∈ bs, b.free = false ∧ b.addr + headerSize t = p := by
  simp [pointers, and_assoc]

theorem apart_cons : Apart (b :: bs) ↔ Apart bs ∧ (b.free = true → ∀ y ∈ bs.head?, y.free = false) := by
  have hmd : Apart ([] ++ b :: bs) ↔ _ := apart_middle
  simpa [Apart] using hmd

namespace Reblocked

variable {h₀ : OsHeap}

theorem layout (hR : Reblocked t h₀ h P r Q bs) (hl : LayoutOk t h₀ (P ++ r :: Q)) :
    LayoutOk t h (P ++ { r with blocks := bs } :: Q) :=
  (hl.replace hR.ok rfl rfl).congr hR.blockList hR.freeList

theorem linked_middle (hR : Reblocked t h₀ h P r Q (xs ++ b :: ys)) :
    Linked t h ((layoutBlocks P ++ xs) ++ b :: (ys ++ layoutBlocks Q)) := by
  have hln := hR.linked
  rwa [layoutBlocks_middle rfl] at hln

theorem of_middle {h' : OsHeap} (hb : h'.blockList = h₀.blockList) (hfr : h'.freeList = h₀.freeList)
    (hln : Linked t h' ((layoutBlocks P ++ xs) ++ b :: (ys ++ layoutBlocks Q)))
    (hok : Region.Ok t { r with blocks := xs ++ b :: ys }) :
    Reblocked t h₀ h' P r Q (xs ++ b :: ys) := by
  refine ⟨hb, hfr, ?_, hok⟩
  rw [layoutBlocks_middle rfl]
  exact hln

/-! ## Serving a request -/

theorem allocateFrom (hR : Reblocked t h₀ h P r Q (xs ++ b :: ys))
    (hl : LayoutOk t h₀ (P ++ r :: Q)) (ha : r.arena = true) (hb : b.free = true) (hn : 8 ∣ n)
    (hft : n ≤ b.size) (hap : Apart (xs ++ b :: ys)) :
    ∃ bs, Reblocked t h₀ (h.allocateFrom t b.addr n) P r Q bs ∧ Region.Settled { r with blocks := bs } ∧
      (pointers t bs).Perm ((b.addr + headerSize t) :: pointers t (xs ++ b :: ys)) := by
  have hln := hR.linked_middle
  have hy := hR.layout hl
  have hme : b ∈ xs ++ b :: ys := by simp
  have hlt := hy.past_lt hy.mem hme
  have hsize := hy.size_lt hy.mem hme
  obtain ⟨⟨hx, hys⟩, hsd⟩ := apart_middle.1 hap
  have hp : (false : Bool) = !r.arena := by simp [ha]
  rw [OsHeap.allocateFrom, (hln.holds b hln.mem).size]
  by_cases hsp : n + minFreeGap + headerSize t ≤ b.size
  · have hdt : dataAt t b.addr n = b.addr + headerSize t + n := by
      rw [HeapBlock.past] at hlt
      exact Nat.mod_eq_of_lt (by omega)
    have hpos := headerSize_pos t
    have hbl : ({ r with blocks := xs ++ b :: ys } : Region).blocks = xs ++ b :: ys := rfl
    have hfs := hy.fresh hbl (b.addr + headerSize t + n) (by omega) (by rw [HeapBlock.past]; omega)
      (Nat.dvd_add (Nat.dvd_add (hR.ok.fits hme).aligned (eight_dvd_headerSize t)) hn)
    rw [layoutBlocks_middle rfl, ← hdt] at hfs
    have hc := hln.splitBlock hb hfs hsize (by omega)
    have hok := hR.ok.split hbl ha hb hn (by omega)
    rw [← hdt] at hok
    rw [if_pos hsp]
    refine ⟨_, of_middle hR.blockList hR.freeList (hc.takeBlock hb false)
      (hok.setFree rfl fun _ => hp), ⟨?_, ?_⟩, ?_⟩
    · exact apart_middle.2 ⟨⟨hx, apart_cons.2 ⟨hys, fun _ => (hsd hb).2⟩⟩,
        fun hfr => absurd hfr Bool.false_ne_true⟩
    · exact ⟨{ b with size := n, free := false, mapped := false }, by simp, rfl⟩
    · rw [pointers_append, pointers_append, pointers_used rfl, pointers_free rfl, pointers_free hb]
      exact perm_middle
  · rw [if_neg hsp]
    refine ⟨_, of_middle hR.blockList hR.freeList (hln.takeBlock hb false)
      (hR.ok.setFree rfl fun _ => hp), ⟨?_, ?_⟩, ?_⟩
    · exact apart_middle.2 ⟨⟨hx, hys⟩, fun hfr => absurd hfr Bool.false_ne_true⟩
    · exact ⟨{ b with free := false, mapped := false }, by simp, rfl⟩
    · rw [pointers_append, pointers_append, pointers_used rfl, pointers_free hb]
      exact perm_middle

/-! ## Freeing a block -/

theorem mergeNext (hR : Reblocked t h₀ h P r Q (xs ++ b :: ys))
    (hl : LayoutOk t h₀ (P ++ r :: Q)) (hQ : ∀ s ∈ Q, ∃ c ∈ s.blocks, c.free = false)
    (hb : b.free = true) (hys : Apart ys) :
    ∃ b' ys', Reblocked t h₀ (h.osTryMergeNext t b.addr).1 P r Q (xs ++ b' :: ys') ∧
      b'.addr = b.addr ∧ b'.free = true ∧ Apart ys' ∧ (∀ y ∈ ys'.head?, y.free = false) ∧
      pointers t ys' = pointers t ys := by
  have hln := hR.linked_middle
  have hly := hR.layout hl
  have hlt := hly.past_lt hly.mem (mem_append_right xs mem_cons_self)
  cases ys with
  | nil =>
    have hsk := hln.osTryMergeNext_skip hlt fun _ c hc _ hcf =>
      head_starts (fun s hs => hl.ok s (by simp [hs])) hQ (by simpa using hc) hcf
    rw [hsk]
    exact ⟨b, [], hR, rfl, hb, hys, nofun, rfl⟩
  | cons c ys =>
    cases hc : c.free with
    | false =>
      have hsk := hln.osTryMergeNext_skip hlt fun _ d hd _ hdf => by
        obtain rfl : c = d := by simpa using hd
        rw [hc] at hdf
        cases hdf
      rw [hsk]
      refine ⟨b, c :: ys, hR, rfl, hb, hys, fun y hy => ?_, rfl⟩
      obtain rfl : c = y := by simpa using hy
      exact hc
    | true =>
      have hp : b.past t = c.addr := (chained_middle.1 hR.ok.chained).2.1.symm
      have hj := hR.ok.join rfl hb
      have hly' := hl.replace hj rfl rfl
      have hrm := hly'.size_lt hly'.mem (mem_append_right xs mem_cons_self)
      obtain ⟨h', hmr, hbl, hfr, hln'⟩ := hln.osTryMergeNext_join hlt hb hp hc
        (hR.ok.not_starts rfl mem_cons_self) hrm
      obtain ⟨hys', hh⟩ := apart_cons.1 hys
      rw [hmr]
      exact ⟨_, ys, of_middle (hbl.trans hR.blockList) (hfr.trans hR.freeList) hln' hj,
        rfl, hb, hys', hh hc, (pointers_free hc).symm⟩

/-- The free block before it takes in a block that was freed. -/
theorem mergePrev (hR : Reblocked t h₀ h P r Q (xs ++ b :: ys))
    (hl : LayoutOk t h₀ (P ++ r :: Q)) (har : r.arena = true) (hb : b.free = true)
    (hxs : Apart xs) :
    ∃ b' xs' h', h.mergePrev t b.addr = (h', b'.addr) ∧ Reblocked t h₀ h' P r Q (xs' ++ b' :: ys) ∧
      b'.free = true ∧ Apart xs' ∧ (∀ x ∈ xs'.getLast?, x.free = false) ∧
      pointers t xs' = pointers t xs := by
  have hln := hR.linked_middle
  have hy := hR.layout hl
  have hrn : h.block.Ring h.blockList ((layoutBlocks P ++ xs).map (·.addr) ++ b.addr ::
      (ys ++ layoutBlocks Q).map (·.addr)) := by
    simpa using hln.ring
  have hpr := hrn.prev_eq
  rcases eq_nil_or_concat' xs with rfl | ⟨xs', p, rfl⟩
  · rcases eq_nil_or_concat' (layoutBlocks P) with hP | ⟨ps, q, hP⟩
    · have hh : h.block.prev b.addr = h.blockList := by simpa [hP] using hpr
      refine ⟨b, [], h, ?_, hR, hb, hxs, nofun, rfl⟩
      rw [OsHeap.mergePrev, hh]
      exact if_pos rfl
    · have ha : h.block.prev b.addr = q.addr := by simpa [hP] using hpr
      have hne : q.addr ≠ h.blockList := fun heq => hrn.head_not_mem (by simp [hP, heq])
      obtain ⟨s, hs, hq⟩ := mem_layoutBlocks.1 (show q ∈ layoutBlocks P by simp [hP])
      have hls : (layoutBlocks P ++ []) ++ b :: (ys ++ layoutBlocks Q)
          = ps ++ q :: b :: (ys ++ layoutBlocks Q) := by simp [hP]
      rw [hls] at hln
      have hsk := hln.osTryMergeNext_skip (hl.past_lt (mem_append_left _ hs) hq) fun _ c hc _ _ => by
          obtain rfl : b = c := by simpa using hc
          exact hR.ok.starts_first rfl har
      refine ⟨b, [], h, ?_, hR, hb, hxs, nofun, rfl⟩
      rw [OsHeap.mergePrev, ha]
      simp only [if_neg hne, hsk]
      rfl
  · have ha : h.block.prev b.addr = p.addr := by simpa using hpr
    have hne : p.addr ≠ h.blockList := fun heq => hrn.head_not_mem (by simp [heq])
    have hls : (layoutBlocks P ++ (xs' ++ [p])) ++ b :: (ys ++ layoutBlocks Q)
        = (layoutBlocks P ++ xs') ++ p :: b :: (ys ++ layoutBlocks Q) := by simp
    have hmd : (xs' ++ [p]) ++ b :: ys = xs' ++ p :: b :: ys := by simp
    have hok : Region.Ok t { r with blocks := xs' ++ p :: b :: ys } := hmd ▸ hR.ok
    have hlt := hy.past_lt hy.mem (show p ∈ (xs' ++ [p]) ++ b :: ys by simp)
    obtain ⟨⟨hxs', -⟩, hsd⟩ := apart_middle.1 hxs
    rw [hls] at hln
    cases hp : p.free with
    | false =>
      have hsk := hln.osTryMergeNext_skip hlt fun hpf => by
        rw [hp] at hpf
        cases hpf
      refine ⟨b, xs' ++ [p], h, ?_, hR, hb, hxs, fun x hx => ?_, rfl⟩
      · rw [OsHeap.mergePrev, ha]
        simp only [if_neg hne, hsk]
        rfl
      · obtain rfl : p = x := by simpa using hx
        exact hp
    | true =>
      have hps : p.past t = b.addr := (chained_middle.1 hok.chained).2.1.symm
      have hj := hok.join rfl hp
      have hy' := hl.replace hj rfl rfl
      have hrm := hy'.size_lt hy'.mem (mem_append_right xs' mem_cons_self)
      obtain ⟨h', hmr, hbl, hfr, hln'⟩ := hln.osTryMergeNext_join hlt hp hps hb
        (hok.not_starts rfl mem_cons_self) hrm
      refine ⟨_, xs', h', ?_, of_middle (hbl.trans hR.blockList) (hfr.trans hR.freeList) hln'
        hj, hp, hxs', (hsd hp).1, ?_⟩
      · rw [OsHeap.mergePrev, ha]
        simp only [if_neg hne, hmr]
        rfl
      · rw [pointers_append, pointers_free hp]
        exact (append_nil _).symm

end Reblocked

end Boron.Os
