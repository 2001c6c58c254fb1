import Boron.Os.UserHeapRuns

/-! # Requests of any size

What a request gets from a heap that is in order: a pointer to that many bytes up to the next header and
up to the end of the region, or nothing. It is so, and no sum on the way wraps, just if the size rounded
up to 8 bytes leaves room for a header in a word (`request_right_iff`). A size that wraps when it is
rounded up is taken for a request of no bytes, which any block can serve. -/

namespace Boron.Os.HeapSystem

open List Option

open Rtl (Target)

/-- The bytes from `p` on may be used: they lie in one mapped region, behind the header of a block, and
no other header stands in them. -/
def Usable (t : Target) (h : OsHeap) (mapped : List (Nat × Nat)) (p size : Nat) : Prop :=
  (∃ r ∈ mapped, r.1 + headerSize t ≤ p ∧ p + size ≤ r.1 + r.2) ∧
    ∃ headers, h.block.Ring h.blockList headers ∧ p - headerSize t ∈ headers ∧
      ∀ a ∈ headers, a < p ∨ p + size ≤ a

/-- What a request should do. -/
structure RequestRight (t : Target) (s : HeapSystem) (size : Nat) (answer : Option Nat) : Prop where
  returns : ∃ n, ∀ fuel ≥ n, (s.heap.osAllocateHeap t fuel size [answer]).isSome
  gets : ∀ fuel r, s.heap.osAllocateHeap t fuel size [answer] = some r →
    r.2.1 = 0 ∧ r.1 = s.heap ∧ r.2.2 = [] ∨
      r.2.1 ≠ 0 ∧ Usable t r.1 (r.2.2 ++ s.mapped) r.2.1 size ∧
        size ≤ r.1.blockSize (r.2.1 - headerSize t)
  /-- The rounding and the sum for the region do not wrap. -/
  exact : alignedSize t size = (size + 7) / 8 * 8 ∧
    (alignedSize t size + headerSize t) % 2 ^ t.wordBits = alignedSize t size + headerSize t

variable {t : Target} {s : HeapSystem} {h : OsHeap} {lay : List Region} {p size : Nat}
  {answer : Option Nat}

theorem Inv.usable (hI : Inv t s lay) (hp : p ∈ s.live)
    (hsize : size ≤ s.heap.blockSize (p - headerSize t)) : Usable t s.heap s.mapped p size := by
  obtain ⟨c, hc, -, rfl⟩ := (mem_live_iff hI).1 hp
  obtain ⟨r, hr, hcr⟩ := mem_layoutBlocks.1 hc
  have hb := (hI.layout.ok r hr).chained.bounds hcr
  rw [Nat.add_sub_cancel, (hI.linked.holds c hc).size] at hsize
  rw [HeapBlock.past, Region.stop] at hb
  refine ⟨⟨(r.start, r.size), ?_, ?_⟩, (layoutBlocks lay).map (·.addr), hI.linked.ring, ?_,
    fun a ha => ?_⟩
  · rw [hI.mapped]
    exact List.mem_map.2 ⟨r, hr, rfl⟩
  · exact ⟨by simp only; omega, by simp only; omega⟩
  · rw [Nat.add_sub_cancel]
    exact List.mem_map_of_mem hc
  · obtain ⟨d, hd, rfl⟩ := List.mem_map.1 ha
    have hpos := headerSize_pos t
    have hlt := d.addr_lt_past t
    obtain ⟨xs, ys, hsp⟩ := append_of_mem hc
    rw [hsp] at hd
    have hap := (pairwise_append.1 (hsp ▸ blocks_apart hI.layout))
    rcases mem_middle.1 hd with rfl | hd
    · left
      omega
    · have hsd : d.past t ≤ c.addr ∨ c.past t ≤ d.addr := by
        rcases mem_append.1 hd with hd | hd
        · exact hap.2.2 d hd c mem_cons_self
        · exact ((pairwise_cons.1 hap.2.1).1 d hd).symm
      unfold HeapBlock.past at hsd hlt
      omega

/-- **A request is right just if its size, rounded up to 8 bytes, and a header have room in a word.** -/
theorem request_right_iff (hh : 2 ∣ h.freeList)
    (hr : Reaches (HeapSystem.step t) (fun s a => s.Promised t a ∧ Fits t a) (initial h) s)
    (hp : s.Promised t (.allocate 0 size answer)) :
    RequestRight t s size answer ↔ (size + 7) / 8 * 8 + headerSize t < 2 ^ t.wordBits := by
  constructor
  · rintro ⟨-, -, ha, hrg⟩
    rw [← ha, ← hrg]
    exact Nat.mod_lt _ (Nat.two_pow_pos _)
  · intro hlt
    have ha : alignedSize t size = (size + 7) / 8 * 8 := by
      have hhd : 7 < headerSize t := by cases t <;> decide
      rw [alignedSize, Nat.mod_eq_of_lt (by omega)]
    obtain ⟨lay, hI⟩ := inv_of_reaches hh hr
    obtain ⟨n, r, hsr, ⟨lay', hI'⟩, hrn⟩ := hI.allocate hp (.inr (ha ▸ hlt))
    refine ⟨⟨n, fun fuel hle => ?_⟩, fun fuel r' hr' => ?_, ha, ?_⟩
    · rcases hrn fuel with hsm | ⟨hw, -⟩
      · rw [hsm]
        rfl
      · omega
    · obtain rfl : r = r' := by
        rcases hrn fuel with hsm | ⟨-, hnn⟩
        · exact some.inj (hsm.symm.trans hr')
        · rw [hr'] at hnn
          cases hnn
      refine hsr.imp id fun ⟨hne, hlr⟩ => ?_
      rw [if_neg hne] at hI'
      have hsize : size ≤ r.1.blockSize (r.2.1 - headerSize t) := by omega
      exact ⟨hne, hI'.usable mem_cons_self hsize, hsize⟩
    · rw [ha]
      exact Nat.mod_eq_of_lt hlt

theorem request_right_arena : RequestRight .amd64 (initial (sampleHeap 0x1000)) 100 (some 0x20000) := by
  refine (request_right_iff (by decide) .refl ⟨by decide, fun start hst => ?_⟩).2 (by decide)
  cases hst
  exact mappable_of_test (by decide)

theorem wrapped_size_served : ¬ ∀ s : HeapSystem,
    Reaches (HeapSystem.step .amd64) (fun s a => s.Promised .amd64 a ∧ Fits .amd64 a)
      (initial (sampleHeap 0x1000)) s →
    ∀ size answer, s.Promised .amd64 (.allocate 0 size answer) → RequestRight .amd64 s size answer := by
  intro ha
  have hrn : (runChecked (HeapSystem.step .amd64)
      (fun s a => s.promisedTest .amd64 a && decide (Fits .amd64 a)) [.allocate 2 16 (some 0x20000)]
      (initial (sampleHeap 0x1000))).bind (fun s =>
        (s.heap.osAllocateHeap .amd64 2 (2 ^ 64 - 1) [none]).map fun r =>
          (r.2.1, r.2.2 ++ s.mapped)) = some (0x20060, [(0x20000, 0x20000)]) := by
    decide +kernel
  obtain ⟨s, hs, hrs⟩ := bind_eq_some_iff.1 hrn
  obtain ⟨r, hr, he⟩ := map_eq_some_iff.1 hrs
  obtain ⟨hp, hmp⟩ := Prod.mk.inj he
  have hc : Reaches (HeapSystem.step .amd64) (fun s a => s.Promised .amd64 a ∧ Fits .amd64 a)
      (initial (sampleHeap 0x1000)) s := by
    refine .of_runChecked (fun s a hok => ?_) hs
    rw [Bool.and_eq_true] at hok
    exact ⟨promised_of_test hok.1, of_decide_eq_true hok.2⟩
  rcases (ha s hc (2 ^ 64 - 1) none ⟨by decide, nofun⟩).gets 2 r hr with
    ⟨hz, -⟩ | ⟨-, ⟨⟨q, hq, -, he⟩, -⟩, -⟩
  · rw [hp] at hz
    cases hz
  · rw [hmp] at hq
    obtain rfl := mem_singleton.1 hq
    rw [hp] at he
    revert he
    decide

end Boron.Os.HeapSystem
