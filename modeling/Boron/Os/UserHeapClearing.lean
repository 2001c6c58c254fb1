import Boron.Os.UserHeapRuns

/-! # Clearing a user heap

`OSDLLClearEntireHeap` walks the block list and frees every block in use; as a free may take any of the
blocks around it off the list, it starts over after each. On a heap that is as its invariant says this
frees one pointer after the other, and the last one of a region unmaps it. -/

namespace Boron.Os

open List Option

open Rtl (Target)

namespace OsHeap

variable (t : Target)

/-- The loop of `OSDLLClearEntireHeap`: the heap, and the regions it gives back. -/
def clearLoop : Nat → OsHeap → Nat → Option (OsHeap × List (Nat × Nat))
  | 0, _, _ => none
  | fuel + 1, h, entry =>
    if entry = h.blockList then some (h, [])
    else if h.isFree entry then clearLoop fuel h (h.block.next entry)
    else (h.osFreeHeap t (dataAt t entry 0)).bind fun (h', call) =>
      (clearLoop fuel h' (h'.block.next h'.blockList)).map fun r => (r.1, call.toList ++ r.2)

def osdllClearEntireHeap (fuel : Nat) (h : OsHeap) : Option (OsHeap × List (Nat × Nat)) :=
  h.clearLoop t fuel (h.block.next h.blockList)

end OsHeap

namespace HeapSystem

/-- Clearing ends, with both lists empty and each mapped region given back once, as it was mapped. -/
structure ClearsRight (t : Target) (s : HeapSystem) : Prop where
  ends : ∃ n, ∀ fuel ≥ n, (s.heap.osdllClearEntireHeap t fuel).isSome
  cleared : ∀ fuel r, s.heap.osdllClearEntireHeap t fuel = some r →
    r.1.block.Ring r.1.blockList [] ∧ r.1.free.Ring r.1.freeList [] ∧ r.2.Perm s.mapped

variable {t : Target} {s : HeapSystem} {h : OsHeap} {b : Nat} {pre xs ys : List Nat} {lay : List Region}

theorem clearLoop_skip (hrn : h.block.Ring h.blockList (pre ++ (xs ++ b :: ys)))
    (hfr : ∀ a ∈ xs, h.isFree a = true) (fuel : Nat) :
    h.clearLoop t (fuel + xs.length) ((xs ++ b :: ys).headD h.blockList) = h.clearLoop t fuel b := by
  induction xs generalizing pre with
  | nil => rfl
  | cons a xs ih =>
    have ha : a ≠ h.blockList := by
      rintro rfl
      exact hrn.head_not_mem (by simp)
    rw [length_cons, ← Nat.add_assoc]
    show h.clearLoop t (fuel + xs.length + 1) a = _
    rw [OsHeap.clearLoop, if_neg ha, if_pos (hfr a mem_cons_self), hrn.next_eq]
    refine @ih (pre ++ [a]) (by simpa using hrn) fun c hc => hfr c (mem_cons_of_mem _ hc)

theorem first_used {bs : List HeapBlock} (h : ∃ b ∈ bs, b.free = false) :
    ∃ xs b ys, bs = xs ++ b :: ys ∧ b.free = false ∧ ∀ a ∈ xs, a.free = true := by
  induction bs with
  | nil => simp at h
  | cons c bs ih =>
    cases hc : c.free with
    | false => exact ⟨[], c, bs, rfl, hc, nofun⟩
    | true =>
      obtain ⟨d, hd, hfr⟩ := h
      rcases mem_cons.1 hd with rfl | hd
      · rw [hc] at hfr
        cases hfr
      · obtain ⟨xs, b, ys, rfl, hb, hx⟩ := ih ⟨d, hd, hfr⟩
        refine ⟨c :: xs, b, ys, rfl, hb, fun a ha => ?_⟩
        rcases mem_cons.1 ha with rfl | ha
        · exact hc
        · exact hx a ha

/-- More turns do not change what comes out. -/
theorem clearLoop_mono {fuel more a : Nat} {r : OsHeap × List (Nat × Nat)}
    (hrn : h.clearLoop t fuel a = some r) (hle : fuel ≤ more) : h.clearLoop t more a = some r := by
  induction fuel generalizing h more a r with
  | zero => cases hrn
  | succ fuel ih =>
    obtain ⟨more, rfl⟩ := Nat.exists_eq_add_of_le' (Nat.one_le_of_lt hle)
    have hle : fuel ≤ more := Nat.le_of_succ_le_succ hle
    rw [OsHeap.clearLoop] at hrn ⊢
    by_cases he : a = h.blockList
    · rw [if_pos he] at hrn ⊢
      exact hrn
    · rw [if_neg he] at hrn ⊢
      by_cases hfr : h.isFree a = true
      · rw [if_pos hfr] at hrn ⊢
        exact ih hrn hle
      · rw [if_neg hfr] at hrn ⊢
        obtain ⟨⟨h', call⟩, hc, hrs⟩ := bind_eq_some_iff.1 hrn
        obtain ⟨r', hr', rfl⟩ := map_eq_some_iff.1 hrs
        rw [hc, bind_some]
        exact congrArg (Option.map _) (ih hr' hle)

/-- What the invariant makes of clearing. The induction is on the pointers in use; the walk frees the
first of them and is then at the start of a heap with one less. -/
theorem Inv.clear (hI : Inv t s lay) : ∃ n r, s.heap.osdllClearEntireHeap t n = some r ∧
    r.1.block.Ring r.1.blockList [] ∧ r.1.free.Ring r.1.freeList [] ∧ r.2.Perm s.mapped := by
  induction hlength : s.live.length generalizing s lay with
  | zero =>
    have hnn : lay = [] := by
      by_contra hne
      obtain ⟨r, hr⟩ := exists_mem_of_ne_nil lay hne
      obtain ⟨b, hb, hfr⟩ := (hI.settled r hr).live
      have hme := (mem_live_iff hI).2 ⟨b, mem_layoutBlocks.2 ⟨r, hr, hb⟩, hfr, rfl⟩
      rw [length_eq_zero_iff.1 hlength] at hme
      cases hme
    subst hnn
    have hrn := hI.linked.ring
    obtain ⟨l, hfrR, hp⟩ := hI.linked.freeRing
    obtain rfl := hp.eq_nil
    refine ⟨1, (s.heap, []), ?_, hrn, hfrR, by rw [hI.mapped]; exact .nil⟩
    rw [OsHeap.osdllClearEntireHeap, OsHeap.clearLoop]
    exact if_pos hrn.first_eq
  | succ count ih =>
    obtain ⟨m, hm⟩ := exists_mem_of_length_pos (by omega : 0 < s.live.length)
    obtain ⟨c, hc, hcf, -⟩ := (mem_live_iff hI).1 hm
    obtain ⟨xs, b, ys, hbl, hb, hxs⟩ := first_used ⟨c, hc, hcf⟩
    have hme : b ∈ layoutBlocks lay := by simp [hbl]
    have hlv := (mem_live_iff hI).2 ⟨b, hme, hb, rfl⟩
    obtain ⟨h', call, hfs⟩ := hI.free hlv
    obtain ⟨lay', hI'⟩ := hfs.inv
    obtain ⟨n, r, hru, hbk, hfr, hp⟩ := ih hI' (by
      rw [length_erase_of_mem hlv, hlength, Nat.add_sub_cancel])
    refine ⟨n + 1 + xs.length, (r.1, call.toList ++ r.2), ?_, hbk, hfr, ?_⟩
    · have hrn := hI.linked.ring
      have hholds := hI.linked.holds
      rw [hbl, map_append, map_cons] at hrn
      have hps : ∀ a ∈ xs.map fun b => b.addr, s.heap.isFree a = true := by
        intro a ha
        obtain ⟨x, hx, rfl⟩ := List.mem_map.1 ha
        rw [(hholds x (by simp [hbl, hx])).free, hxs x hx]
      have hsk := @clearLoop_skip t s.heap b.addr [] _ _ hrn hps (n + 1)
      have hne : b.addr ≠ s.heap.blockList := fun heq => hrn.head_not_mem (by simp [heq])
      obtain ⟨q, hq, hbq⟩ := mem_layoutBlocks.1 hme
      have hpt := hI.layout.past_lt hq hbq
      rw [HeapBlock.past] at hpt
      have hdt : dataAt t b.addr 0 = b.addr + headerSize t := Nat.mod_eq_of_lt (by omega)
      rw [length_map] at hsk
      rw [OsHeap.osdllClearEntireHeap, show s.heap.block.next s.heap.blockList = _ from hrn.first_eq,
        hsk, OsHeap.clearLoop, if_neg hne, (hholds b hme).free, hb, if_neg Bool.false_ne_true, hdt,
        hfs.returns, bind_some]
      exact congrArg (Option.map _) hru
    · obtain ⟨q, hq, -, rfl | rfl, -⟩ := hfs.region
      · exact hp
      · exact (hp.cons q).trans (perm_cons_erase hq).symm

/-- **As long as no region is mapped for a request whose size wraps with the header, clearing the heap
ends between any two calls, with both lists empty and every region unmapped once.** -/
theorem clears_right_of_fits (hh : 2 ∣ h.freeList)
    (hr : Reaches (HeapSystem.step t) (fun s a => s.Promised t a ∧ Fits t a) (initial h) s) :
    s.ClearsRight t := by
  obtain ⟨lay, hI⟩ := inv_of_reaches hh hr
  obtain ⟨n, r, hrn, hc⟩ := hI.clear
  refine ⟨⟨n, fun fuel hle => ?_⟩, fun fuel r' hr' => ?_⟩
  · rw [OsHeap.osdllClearEntireHeap, clearLoop_mono hrn hle]
    rfl
  · have hb := (clearLoop_mono hrn (le_max_right fuel n)).symm.trans
      (clearLoop_mono hr' (le_max_left fuel n))
    cases hb
    exact hc

/-- Two blocks of an arena, and a region of its own. -/
def threeBlocks : List HeapAction :=
  [.allocate 2 100 (some 0x20000), .allocate 2 200 none, .allocate 2 0x20000 (some 0x80000)]

theorem clears_right_three : ∃ s : HeapSystem,
    Reaches (HeapSystem.step .amd64) (fun s a => s.Promised .amd64 a ∧ Fits .amd64 a)
      (initial (sampleHeap 0x1000)) s ∧ s.live.length = 3 ∧ s.ClearsRight .amd64 := by
  have hrn : (runChecked (HeapSystem.step .amd64)
      (fun s a => s.promisedTest .amd64 a && decide (Fits .amd64 a)) threeBlocks
      (initial (sampleHeap 0x1000))).map (·.live.length) = some 3 := by
    decide +kernel
  obtain ⟨s, hs, hlength⟩ := map_eq_some_iff.1 hrn
  have hc : Reaches (HeapSystem.step .amd64) (fun s a => s.Promised .amd64 a ∧ Fits .amd64 a)
      (initial (sampleHeap 0x1000)) s := by
    refine .of_runChecked (fun s a hok => ?_) hs
    rw [Bool.and_eq_true] at hok
    exact ⟨promised_of_test hok.1, of_decide_eq_true hok.2⟩
  exact ⟨s, hc, hlength, clears_right_of_fits (by decide) hc⟩

theorem wrapped_region_kept : ¬ ∀ s : HeapSystem,
    Reaches (HeapSystem.step .amd64) (fun s a => s.Promised .amd64 a)
      (initial (sampleHeap 0x1000)) s → s.ClearsRight .amd64 := by
  intro ha
  have hrn : (runChecked (HeapSystem.step .amd64) (promisedTest .amd64) wrappingRequests
      (initial (sampleHeap 0x1000))).bind (fun s => (s.heap.osdllClearEntireHeap .amd64 3).map
        fun r => (r.2, s.mapped)) =
      some ([(0x10000, 2 ^ 62 + 8), (0x20000, 0x20000)], [(0x10000, 8), (0x20000, 0x20000)]) := by
    decide +kernel
  obtain ⟨s, hs, hrs⟩ := bind_eq_some_iff.1 hrn
  obtain ⟨r, hr, he⟩ := map_eq_some_iff.1 hrs
  obtain ⟨hc, hmp⟩ := Prod.mk.inj he
  have hp := ((ha s (.of_runChecked (fun _ _ => promised_of_test) hs)).cleared 3 r hr).2.2
  rw [hc, hmp] at hp
  revert hp
  decide

end HeapSystem

end Boron.Os
