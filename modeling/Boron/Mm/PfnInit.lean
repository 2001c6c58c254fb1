import Boron.Mm.PfnSystem
import Mathlib.Data.List.Induction

/-! # The frame database after `MiInitPMM`

The second pass of `MiInitPMM` chains the pages of the free regions of the memory map into the free
list, by hand and one region after the other, and marks the pages the loader still uses. Its loop
invariant (`InitInv`) is a list segment whose last frame points at a frame that is not there yet.
The state it leaves is one the life cycle describes (`miInitPMM_refines`), so the results about
runs start from it. -/

namespace Boron.Mm

open Function List Option

/-! ## Memory maps -/

/-- The frames of a region. -/
def LoaderMemoryRegion.pages (r : LoaderMemoryRegion) : List Pfn :=
  (pageOffsets r).map fun j => (r.base + j) / pageSize

/-- The frames of the free regions, in the order of the map. -/
def freePfns (rs : List LoaderMemoryRegion) : List Pfn :=
  (rs.filter fun r => r.type = .free).flatMap LoaderMemoryRegion.pages

/-- The frames that the loader may hand back. -/
def reclaimPfns (rs : List LoaderMemoryRegion) : List Pfn :=
  (rs.filter fun r => r.isTracked ∧ r.type ≠ .free).flatMap LoaderMemoryRegion.pages

/-- What the loader guarantees of its memory map: free regions are page aligned and overlap no other
    tracked region, and every frame number of a tracked region is below `PFN_INVALID`. -/
structure MemoryMapOk (rs : List LoaderMemoryRegion) : Prop where
  aligned : ∀ r ∈ rs, r.type = .free → pageSize ∣ r.base ∧ pageSize ∣ r.size
  bounded : ∀ r ∈ rs, r.isTracked → r.base + r.size ≤ pageSize * pfnInvalid
  apart : rs.Pairwise fun a b => a.isTracked → b.isTracked → a.type = .free ∨ b.type = .free →
    a.base + a.size ≤ b.base ∨ b.base + b.size ≤ a.base

variable {r r' : LoaderMemoryRegion} {rs : List LoaderMemoryRegion} {p : Pfn}

theorem LoaderMemoryRegion.isTracked_of_free (h : r.type = .free) : r.isTracked = true := by
  simp [isTracked, h]

theorem add_mul_pageSize_div (b j : Nat) : (b + j * pageSize) / pageSize = b / pageSize + j := by
  simp only [pageSize]
  omega

theorem LoaderMemoryRegion.mem_pages :
    p ∈ r.pages ↔ ∃ j : Nat, j * pageSize < r.size ∧ r.base / pageSize + j = p := by
  simp only [pages, pageOffsets, List.map_map, List.mem_map, mem_range, comp_apply,
    add_mul_pageSize_div]
  constructor
  · rintro ⟨j, hj, hp⟩
    exact ⟨j, by simp only [pageSize] at *; omega, hp⟩
  · rintro ⟨j, hj, hp⟩
    exact ⟨j, by simp only [pageSize] at *; omega, hp⟩

theorem LoaderMemoryRegion.pages_of_aligned (hs : pageSize ∣ r.size) :
    r.pages = (List.range (r.size / pageSize)).map (r.base / pageSize + ·) := by
  have hn : (r.size + pageSize - 1) / pageSize = r.size / pageSize := by
    simp only [pageSize] at *
    omega
  rw [pages, pageOffsets, hn, List.map_map]
  exact map_congr_left fun j _ => add_mul_pageSize_div r.base j

/-- An aligned region shares no frame with a region it does not overlap. -/
theorem LoaderMemoryRegion.disjoint_pages (hb : pageSize ∣ r.base) (hs : pageSize ∣ r.size)
    (ha : r.base + r.size ≤ r'.base ∨ r'.base + r'.size ≤ r.base) (hp : p ∈ r.pages) :
    p ∉ r'.pages := by
  intro hp'
  obtain ⟨j, hj, rfl⟩ := mem_pages.1 hp
  obtain ⟨i, hi, he⟩ := mem_pages.1 hp'
  simp only [pageSize] at *
  omega

theorem LoaderMemoryRegion.lt_invalid_of_mem_pages
    (hb : r.base + r.size ≤ pageSize * pfnInvalid) (hp : p ∈ r.pages) : p < pfnInvalid := by
  obtain ⟨j, hj, rfl⟩ := mem_pages.1 hp
  show r.base / pageSize + j < 4294967295
  simp only [pageSize, pfnInvalid] at *
  omega

/-! ## The page loops -/

/-- The second pass, midway: the frames `F` are chained, `n` is what the last of them points at, and
    the frames `R` are the loader's. -/
structure InitInv (st : InitPass) (F R : List Pfn) (n : Pfn) : Prop where
  seg : Seg (fun p => (st.db.frame p).nextFrame) (fun p => (st.db.frame p).prevFrame) pfnInvalid F n
  first : (st.db.ends .free).first = F.headD pfnInvalid
  last : st.lastPfnOfPrevBlock = F.getLastD pfnInvalid
  others : ∀ l, l ≠ .free → st.db.ends l = ⟨pfnInvalid, pfnInvalid⟩
  count : st.freePageCount = F.length
  free : ∀ p ∈ F, (st.db.frame p).unlinked = .zero
  reclaim : ∀ p ∈ R, (st.db.frame p).unlinked = { Pfdbe.zero with type := .reclaim, refCount := 1 }

variable {st : InitPass} {F R : List Pfn} {n c q : Pfn} {j : Nat}

theorem initFreePage_frame_self (hc : (r.base + j) / pageSize = c) (hls : st.lastPfnOfPrevBlock ≠ c) :
    (initFreePage r st j).db.frame c =
      { Pfdbe.zero with
        prevFrame := if j = 0 then st.lastPfnOfPrevBlock else c - 1
        nextFrame := if r.size ≤ j + pageSize then pfnInvalid else c + 1 } := by
  simp only [initFreePage, hc]
  by_cases hj : j = 0 <;> by_cases hl : st.lastPfnOfPrevBlock = pfnInvalid <;>
    simp [hj, hl, Pfdb.modify_frame, Ne.symm hls]

/-- The other entries: the last page of the previous region gets its successor. -/
theorem initFreePage_frame_of_ne (hc : (r.base + j) / pageSize = c) (hq : q ≠ c)
    (hqn : q ≠ pfnInvalid) :
    (initFreePage r st j).db.frame q =
      if j = 0 ∧ q = st.lastPfnOfPrevBlock then { st.db.frame q with nextFrame := c }
      else st.db.frame q := by
  have hen : ∀ db : Pfdb, (if (db.ends .free).first = pfnInvalid then
      db.setEnds .free ⟨c, (db.ends .free).last⟩ else db).frame = db.frame := by
    intro db
    split <;> rfl
  simp only [initFreePage, hc, Pfdb.modify_frame, if_neg hq]
  by_cases hj : j = 0
  · simp only [hj, if_true, true_and]
    rw [modify_guarded_frame _ _ hqn]
    split
    · next he => simp [Pfdb.modify_frame, hq, hen]
    · next he => simp [Pfdb.modify_frame, hq, hen]
  · simp only [hj, if_false, false_and, Pfdb.modify_frame, if_neg hq, hen]

theorem initFreePage_ends (st : InitPass) (hc : (r.base + j) / pageSize = c) :
    ((initFreePage r st j).db.ends .free).first
        = (if (st.db.ends .free).first = pfnInvalid then c else (st.db.ends .free).first) ∧
      ∀ l, l ≠ .free → (initFreePage r st j).db.ends l = st.db.ends l := by
  have he : (initFreePage r st j).db.ends = (if (st.db.ends .free).first = pfnInvalid then
      st.db.setEnds .free ⟨c, (st.db.ends .free).last⟩ else st.db).ends := by
    simp only [initFreePage, hc, Pfdb.modify_ends]
    split_ifs <;> rfl
  rw [he]
  split
  · refine ⟨by simp [Pfdb.setEnds_ends], fun l hl => ?_⟩
    rw [Pfdb.setEnds_ends, if_neg hl]
  · exact ⟨rfl, fun l _ => rfl⟩

/-- One page of a free region: it follows the page before it, or the last page of the region before
    this one. -/
theorem InitInv.freePage (h : InitInv st F R n) (hc : (r.base + j) / pageSize = c)
    (hnd : F.Nodup) (hcF : c ∉ F) (hcR : c ∉ R) (hcn : c ≠ pfnInvalid) (hFn : pfnInvalid ∉ F)
    (hRn : pfnInvalid ∉ R) (hj : j ≠ 0 → n = c ∧ F.getLast? = some (c - 1)) :
    InitInv (initFreePage r st j) (F ++ [c]) R
      (if r.size ≤ j + pageSize then pfnInvalid else c + 1) := by
  have hls : st.lastPfnOfPrevBlock = F.getLast?.getD pfnInvalid := by
    rw [h.last, getLastD_eq_getLast?]
  have hlc : st.lastPfnOfPrevBlock ≠ c := by
    rw [hls]
    rcases hl : F.getLast? with _ | d
    · exact Ne.symm hcn
    · exact fun he => hcF (he ▸ mem_of_getLast? hl)
  have hsl := initFreePage_frame_self hc hlc
  have hother : ∀ q, q ≠ c → q ≠ pfnInvalid → (initFreePage r st j).db.frame q = _ :=
    fun q hq hqn => initFreePage_frame_of_ne hc hq hqn
  have hneF : ∀ q ∈ F, q ≠ c ∧ q ≠ pfnInvalid := fun q hq =>
    ⟨fun he => hcF (he ▸ hq), fun he => hFn (he ▸ hq)⟩
  have hneR : ∀ q ∈ R, q ≠ c ∧ q ≠ pfnInvalid := fun q hq =>
    ⟨fun he => hcR (he ▸ hq), fun he => hRn (he ▸ hq)⟩
  have hok : ∀ q, q ≠ c → q ≠ pfnInvalid →
      ((initFreePage r st j).db.frame q).unlinked = (st.db.frame q).unlinked := by
    intro q hq hqn
    rw [hother q hq hqn]
    split <;> rfl
  obtain ⟨hfs, hot⟩ := initFreePage_ends st hc
  refine ⟨?_, ?_, ?_, ?_, ?_, ?_, ?_⟩
  · refine h.seg.append_singleton hnd ?_ ?_ ?_
    · intro q hq
      have hif : F.getLast? = some q ↔ q = st.lastPfnOfPrevBlock := by
        rw [hls]
        rcases hl : F.getLast? with _ | d
        · rw [List.getLast?_eq_none_iff] at hl
          simp [hl] at hq
        · simp [eq_comm]
      simp only [hother q (hneF q hq).1 (hneF q hq).2, hif]
      by_cases hj0 : j = 0
      · simp only [hj0, true_and]
        split <;> rfl
      · -- inside a region the previous page already points here
        obtain ⟨rfl, -⟩ := hj hj0
        simp only [hj0, false_and, if_false]
        split
        · next he => exact h.seg.next_getLast (hif.2 he)
        · rfl
    · intro q hq
      simp only [hother q (hneF q hq).1 (hneF q hq).2]
      split <;> rfl
    · simp only [hsl, true_and]
      rw [getLastD_eq_getLast?]
      split
      · exact hls
      · next hj0 => rw [(hj hj0).2]; rfl
  · rw [hfs, h.first]
    cases F with
    | nil => simp
    | cons d F =>
      have hd : d ≠ pfnInvalid := (hneF d (by simp)).2
      simp [hd]
  · simp [initFreePage, hc, getLastD_eq_getLast?]
  · exact fun l hl => (hot l hl).trans (h.others l hl)
  · simp [initFreePage, h.count]
  · intro q hq
    rw [List.mem_append, mem_singleton] at hq
    rcases hq with hq | rfl
    · exact (hok q (hneF q hq).1 (hneF q hq).2).trans (h.free q hq)
    · rw [hsl]
      rfl
  · exact fun q hq => (hok q (hneR q hq).1 (hneR q hq).2).trans (h.reclaim q hq)

theorem InitInv.reclaimPage (h : InitInv st F R n) (hc : (r.base + j) / pageSize = c)
    (hcF : c ∉ F) : InitInv (initReclaimPage r st j) F (R ++ [c]) n := by
  have hfr : ∀ q, q ≠ c → (initReclaimPage r st j).db.frame q = st.db.frame q := by
    intro q hq
    simp only [initReclaimPage, hc, Pfdb.modify_frame, if_neg hq]
  have hsl : (initReclaimPage r st j).db.frame c
      = { Pfdbe.zero with type := .reclaim, refCount := 1 } := by
    simp [initReclaimPage, hc]
  have hneF : ∀ q ∈ F, q ≠ c := fun q hq he => hcF (he ▸ hq)
  refine ⟨h.seg.congr fun q hq => ?_, h.first, h.last, h.others, h.count, ?_, ?_⟩
  · rw [hfr q (hneF q hq)]
    exact ⟨rfl, rfl⟩
  · intro q hq
    rw [hfr q (hneF q hq)]
    exact h.free q hq
  · intro q hq
    by_cases hqc : q = c
    · rw [hqc, hsl]
      rfl
    · rw [hfr q hqc]
      have hqR : q ∈ R := by simpa [hqc] using hq
      exact h.reclaim q hqR

theorem InitInv.freeRegion (h : InitInv st F R pfnInvalid) (hs : pageSize ∣ r.size)
    (hnd : (F ++ r.pages).Nodup) (hpR : ∀ p ∈ r.pages, p ∉ R) (hn : pfnInvalid ∉ F ++ r.pages)
    (hRn : pfnInvalid ∉ R) :
    InitInv ((pageOffsets r).foldl (initFreePage r) st) (F ++ r.pages) R pfnInvalid := by
  obtain ⟨N, hN⟩ := hs
  have hN' : r.size / pageSize = N := by simp [hN, pageSize]
  have hof : pageOffsets r = (List.range N).map (· * pageSize) := by
    have : (r.size + pageSize - 1) / pageSize = N := by
      simp only [hN, pageSize]
      omega
    rw [pageOffsets, this]
  have hpages := LoaderMemoryRegion.pages_of_aligned (r := r) ⟨N, hN⟩
  rw [hN'] at hpages
  -- the loop, page by page: `k` pages are done
  have hp : ∀ k, k ≤ N → InitInv (((List.range k).map (· * pageSize)).foldl (initFreePage r) st)
      (F ++ (List.range k).map (r.base / pageSize + ·)) R
      (if k = 0 ∨ k = N then pfnInvalid else r.base / pageSize + k) := by
    intro k
    induction k with
    | zero => simpa using h
    | succ k ih =>
      intro hk
      have hb : List.Sublist
          (F ++ (List.range k).map (r.base / pageSize + ·) ++ [r.base / pageSize + k])
          (F ++ r.pages) := by
        rw [hpages, append_assoc]
        refine Sublist.append_left ?_ F
        have : (List.range k).map (r.base / pageSize + ·) ++ [r.base / pageSize + k]
            = (List.range (k + 1)).map (r.base / pageSize + ·) := by
          rw [range_succ, map_append, map_singleton]
        rw [this]
        exact (range_sublist.2 hk).map _
      have hnd' := hnd.sublist hb
      have hme : r.base / pageSize + k ∈ r.pages := by
        rw [hpages]
        exact List.mem_map.2 ⟨k, mem_range.2 hk, rfl⟩
      rw [nodup_append_comm, singleton_append, nodup_cons] at hnd'
      have hst := (ih (by omega)).freePage (r := r) (j := k * pageSize)
        (add_mul_pageSize_div r.base k) hnd'.2 hnd'.1 (hpR _ hme)
        (fun he => hn (mem_append_right _ (he ▸ hme)))
        (fun hi => hn (hb.subset (mem_append_left _ hi))) hRn ?_
      · rw [range_succ, map_append, map_append, foldl_append, ← append_assoc]
        have hsize : r.size ≤ k * pageSize + pageSize ↔ k + 1 = 0 ∨ k + 1 = N := by
          simp only [hN, pageSize]
          omega
        simpa only [hsize, map_singleton, foldl_cons, foldl_nil, Nat.add_assoc] using hst
      · intro hk0
        have hk0 : k ≠ 0 := fun he => hk0 (by simp [he])
        refine ⟨by rw [if_neg (by omega)], ?_⟩
        obtain ⟨i, rfl⟩ := Nat.exists_eq_succ_of_ne_zero hk0
        rw [range_succ, map_append, map_singleton, ← append_assoc,
          List.getLast?_append_of_ne_nil _ (by simp)]
        rfl
  have ha := hp N (Nat.le_refl N)
  rw [hof, hpages]
  simpa using ha

theorem InitInv.reclaimRegion (h : InitInv st F R n) (hpF : ∀ p ∈ r.pages, p ∉ F) :
    InitInv ((pageOffsets r).foldl (initReclaimPage r) st) F (R ++ r.pages) n := by
  have hp : ∀ js : List Nat, (∀ j ∈ js, (r.base + j) / pageSize ∉ F) →
      ∀ (st : InitPass) (R : List Pfn), InitInv st F R n → InitInv (js.foldl (initReclaimPage r) st)
        F (R ++ js.map fun j => (r.base + j) / pageSize) n := by
    intro js
    induction js with
    | nil => intro _ st R h; simpa using h
    | cons j js ih =>
      intro hjs st R h
      have hst := ih (fun i hi => hjs i (mem_cons_of_mem _ hi)) _ _
        (h.reclaimPage rfl (hjs j (by simp)))
      simpa using hst
  exact hp _ (fun j hj => hpF _ (List.mem_map_of_mem hj)) st R h

/-! ## The whole pass -/

theorem MemoryMapOk.nodup_pages (h : MemoryMapOk rs) (hr : r ∈ rs) (hf : r.type = .free) :
    r.pages.Nodup := by
  rw [LoaderMemoryRegion.pages_of_aligned (h.aligned r hr hf).2]
  exact nodup_range.map fun a b (ha : r.base / pageSize + a = r.base / pageSize + b) =>
    Nat.add_left_cancel ha

theorem mem_freePfns : p ∈ freePfns rs ↔ ∃ r ∈ rs, r.type = .free ∧ p ∈ r.pages := by
  simp only [freePfns, mem_flatMap, mem_filter, decide_eq_true_eq]
  tauto

theorem mem_reclaimPfns :
    p ∈ reclaimPfns rs ↔ ∃ r ∈ rs, r.isTracked ∧ r.type ≠ .free ∧ p ∈ r.pages := by
  simp only [reclaimPfns, mem_flatMap, mem_filter, decide_eq_true_eq]
  tauto

theorem freePfns_append_singleton :
    freePfns (rs ++ [r]) = freePfns rs ++ if r.type = .free then r.pages else [] := by
  by_cases hr : r.type = .free <;> simp [freePfns, hr]

theorem reclaimPfns_append_singleton : reclaimPfns (rs ++ [r])
      = reclaimPfns rs ++ if r.isTracked ∧ r.type ≠ .free then r.pages else [] := by
  by_cases hr : r.isTracked ∧ r.type ≠ .free <;> simp [reclaimPfns, hr]

theorem MemoryMapOk.disjoint (h : MemoryMapOk rs) :
    rs.Pairwise fun a b => a.isTracked → b.isTracked → a.type = .free ∨ b.type = .free →
      ∀ p ∈ a.pages, p ∉ b.pages := by
  refine h.apart.imp_of_mem ?_
  intro a b ha hb hab hta htb hfr p hp hpb
  rcases hfr with hf | hf
  · obtain ⟨hbs, hsize⟩ := h.aligned a ha hf
    exact LoaderMemoryRegion.disjoint_pages hbs hsize (hab hta htb (.inl hf)) hp hpb
  · obtain ⟨hbs, hsize⟩ := h.aligned b hb hf
    exact LoaderMemoryRegion.disjoint_pages hbs hsize (hab hta htb (.inr hf)).symm hpb hp

theorem MemoryMapOk.init (h : MemoryMapOk (rs ++ [r])) : MemoryMapOk rs :=
  ⟨fun a ha => h.aligned a (mem_append_left _ ha),
    fun a ha => h.bounded a (mem_append_left _ ha), (pairwise_append.1 h.apart).1⟩

theorem MemoryMapOk.lt_invalid (h : MemoryMapOk rs) (hp : p ∈ freePfns rs ∨ p ∈ reclaimPfns rs) :
    p < pfnInvalid := by
  rcases hp with hp | hp
  · obtain ⟨a, ha, hf, hp⟩ := mem_freePfns.1 hp
    exact LoaderMemoryRegion.lt_invalid_of_mem_pages
      (h.bounded a ha (LoaderMemoryRegion.isTracked_of_free hf)) hp
  · obtain ⟨a, ha, ht, -, hp⟩ := mem_reclaimPfns.1 hp
    exact LoaderMemoryRegion.lt_invalid_of_mem_pages (h.bounded a ha ht) hp

theorem MemoryMapOk.invalid_not_mem (h : MemoryMapOk rs) :
    pfnInvalid ∉ freePfns rs ∧ pfnInvalid ∉ reclaimPfns rs :=
  ⟨fun hp => Nat.lt_irrefl _ (h.lt_invalid (.inl hp)),
    fun hp => Nat.lt_irrefl _ (h.lt_invalid (.inr hp))⟩

/-- The last region shares no page with the regions before it, unless neither is free. -/
theorem MemoryMapOk.last_disjoint (h : MemoryMapOk (rs ++ [r])) (ht : r.isTracked) (hp : p ∈ r.pages) :
    p ∉ freePfns rs ∧ (r.type = .free → p ∉ reclaimPfns rs) := by
  have hpr := (pairwise_append.1 h.disjoint).2.2
  constructor
  · intro hme
    obtain ⟨a, ha, hf, hpa⟩ := mem_freePfns.1 hme
    exact hpr a ha r (by simp) (LoaderMemoryRegion.isTracked_of_free hf) ht (.inl hf) p hpa hp
  · intro hf hme
    obtain ⟨a, ha, hta, -, hpa⟩ := mem_reclaimPfns.1 hme
    exact hpr a ha r (by simp) hta ht (.inr hf) p hpa hp

theorem MemoryMapOk.nodup_freePfns (h : MemoryMapOk rs) : (freePfns rs).Nodup := by
  induction rs using List.reverseRecOn with
  | nil => exact nodup_nil
  | append_singleton rs r ih =>
    rw [freePfns_append_singleton]
    split
    · next hf =>
        refine (ih h.init).append (h.nodup_pages (by simp) hf) fun p hp hpr => ?_
        exact (h.last_disjoint (LoaderMemoryRegion.isTracked_of_free hf) hpr).1 hp
    · simpa using ih h.init

theorem MemoryMapOk.free_not_reclaim (h : MemoryMapOk rs) (hp : p ∈ freePfns rs) :
    p ∉ reclaimPfns rs := by
  induction rs using List.reverseRecOn with
  | nil => simp [reclaimPfns]
  | append_singleton rs r ih =>
    rw [freePfns_append_singleton, List.mem_append] at hp
    rw [reclaimPfns_append_singleton, List.mem_append, not_or]
    rcases hp with hp | hp
    · refine ⟨ih h.init hp, fun hpr => ?_⟩
      split at hpr
      · next hr => exact (h.last_disjoint hr.1 hpr).1 hp
      · simp at hpr
    · split at hp
      · next hf =>
          have ht := LoaderMemoryRegion.isTracked_of_free hf
          exact ⟨(h.last_disjoint ht hp).2 hf, by simp [hf]⟩
      · simp at hp

theorem initPass_inv (frame : Pfn → Pfdbe) (h : MemoryMapOk rs) :
    InitInv (rs.foldl initRegion ⟨emptyPfdb frame, pfnInvalid, 0⟩) (freePfns rs) (reclaimPfns rs)
      pfnInvalid := by
  induction rs using List.reverseRecOn with
  | nil =>
    exact ⟨trivial, rfl, rfl, fun _ _ => rfl, rfl, by simp [freePfns], by simp [reclaimPfns]⟩
  | append_singleton rs r ih =>
    have hrs := ih h.init
    have hls : ∀ p ∈ r.pages, r.isTracked → p ∉ freePfns rs ∧
        (r.type = .free → p ∉ reclaimPfns rs) := fun p hp ht => h.last_disjoint ht hp
    have hnd := h.nodup_freePfns
    have hin := h.invalid_not_mem
    rw [freePfns_append_singleton] at hnd hin ⊢
    rw [reclaimPfns_append_singleton, foldl_append, foldl_cons, foldl_nil]
    by_cases hf : r.type = .free
    · have ht := LoaderMemoryRegion.isTracked_of_free hf
      simp only [hf, if_true, ne_eq, not_true, and_false, if_false, append_nil] at hnd hin ⊢
      simp only [initRegion, ht, hf, if_true]
      exact hrs.freeRegion (h.aligned r (by simp) hf).2 hnd (fun p hp => (hls p hp ht).2 hf)
        hin.1 h.init.invalid_not_mem.2
    · by_cases ht : r.isTracked
      · simp only [hf, ht, if_false, if_true, ne_eq, not_false_eq_true, and_self,
          append_nil, initRegion]
        exact hrs.reclaimRegion fun p hp => (hls p hp ht).1
      · simpa [hf, ht, initRegion] using hrs

/-! ## The initial state -/

/-- The system that `MiInitPMM` leaves: the loader holds a reference on each of its pages. -/
def initSystem (db : Pfdb) (rs : List LoaderMemoryRegion) : PfnSystem :=
  ⟨db, fun p => if p ∈ reclaimPfns rs then { refs := 1 } else {}⟩

/-- The roles of the frames after the second pass. -/
def initRole (rs : List LoaderMemoryRegion) (p : Pfn) : Role :=
  if p ∈ freePfns rs then .listed .free
  else if p ∈ reclaimPfns rs then .inUse 1 false
  else .outside

/-- The lists after the second pass. -/
def initLists (rs : List LoaderMemoryRegion) : PfnList → List Pfn
  | .free => freePfns rs
  | _ => []

theorem initRole_isFree : (initRole rs p).isFree = true ↔ p ∈ freePfns rs := by
  unfold initRole
  split_ifs <;> simp_all [Role.isFree]

theorem initPass_refines (frame : Pfn → Pfdbe) (h : MemoryMapOk rs) :
    Refines (initSystem (initPass frame rs).db rs) (initLists rs) (initRole rs) := by
  have hin := initPass_inv frame h
  have hne := h.invalid_not_mem
  refine ⟨⟨?_, ?_⟩, ?_, ?_, ?_, ?_⟩
  · intro l
    by_cases hl : l = .free
    · subst hl
      refine ⟨?_, ?_, h.nodup_freePfns, hne.1, hin.seg⟩
      · simpa [initSystem, initPass, Pfdb.setEnds_ends, initLists] using hin.first
      · simpa [initSystem, initPass, Pfdb.setEnds_ends, initLists] using hin.last
    · have hnil : initLists rs l = [] := by cases l <;> simp_all [initLists]
      have he : (initPass frame rs).db.ends l = ⟨pfnInvalid, pfnInvalid⟩ := by
        simp only [initPass, Pfdb.setEnds_ends, if_neg hl]
        exact hin.others l hl
      unfold Pfdb.IsList
      simp only [initSystem, hnil, he]
      exact IsDList.empty
  · intro l m p hl hm
    cases l <;> cases m <;> simp_all [initLists]
  · intro l p
    cases l <;> simp [initLists, initRole] <;> split_ifs <;> simp_all
  · intro p
    by_cases hf : p ∈ freePfns rs
    · simp [initSystem, initRole, hf, h.free_not_reclaim hf, Role.hold]
    · by_cases hr : p ∈ reclaimPfns rs <;> simp [initSystem, initRole, hf, hr, Role.hold]
  · simp [initRole, hne.1, hne.2]
  · intro p
    unfold initRole
    split_ifs with hf hr
    · exact frameOk_congr (e := .zero) (hin.free p hf) ⟨rfl, rfl⟩
    · refine frameOk_congr (e := { Pfdbe.zero with type := .reclaim, refCount := 1 })
        (hin.reclaim p hr) ?_
      simp [FrameOk, Pfdbe.zero]
    · trivial

variable {s : PfnSystem} {L : PfnList → List Pfn} {role : Pfn → Role}

/-- Zeroing a page with nobody else around succeeds, and moves a free frame to the zero list. -/
theorem mmZeroOutFirstPFN_refines (h : Refines s L role) :
    ∃ db' L' role', mmZeroOutFirstPFN s.db = some db' ∧ Refines { s with db := db' } L' role' ∧
      ∀ p, (role' p).isFree = (role p).isFree ∧ (role p = .outside → role' p = .outside) ∧
        (db'.frame p).prototypePte = (s.db.frame p).prototypePte := by
  obtain ⟨db1, res, hb⟩ : ∃ db1 res, mmZeroOutFirstPFNBegin s.db = some (db1, res) := by
    by_cases hne : (s.db.ends .free).first = pfnInvalid
    · exact ⟨s.db, none, by simp [mmZeroOutFirstPFNBegin, hne]⟩
    · obtain ⟨l', hl'⟩ := (h.linked.isList .free).exists_cons hne
      have hok := h.frameOk (s.db.ends .free).first
      rw [(h.mem_iff .free _).1 (by rw [hl']; exact mem_cons_self)] at hok
      exact ⟨_, _, by simp [mmZeroOutFirstPFNBegin, hne, hok.1]; exact ⟨rfl, rfl⟩⟩
  rcases mmZeroOutFirstPFNBegin_moved h hb with ⟨rfl, rfl⟩ | ⟨p, rfl, hm⟩
  · exact ⟨s.db, L, role, by simp [mmZeroOutFirstPFN, hb], h, fun _ => ⟨rfl, id, rfl⟩⟩
  · obtain ⟨r1, t1, L1, hst1, hot1, -, h1⟩ := hm
    obtain ⟨hr0, rfl, he1⟩ := hst1.of_zeroBegin
    obtain ⟨r2, t2, L2, hst2, hot2, -, h2⟩ :=
      mmZeroOutFirstPFNEnd_moved h1 (p := p) (by rw [update_self])
    obtain ⟨-, rfl, he2⟩ := hst2.of_zeroEnd
    refine ⟨mmZeroOutFirstPFNEnd db1 p, L2, update (update role p .zeroing) p (.listed .zero),
      by simp [mmZeroOutFirstPFN, hb], ?_, ?_⟩
    · have hh : ((s.update db1 p fun h => { h with zeroing := true }).update
          (mmZeroOutFirstPFNEnd db1 p) p fun h => { h with zeroing := false })
            = { s with db := mmZeroOutFirstPFNEnd db1 p } := by
        have hp : ({ s.hold p with zeroing := false } : Hold) = s.hold p := by
          rw [h.hold_eq, hr0]
          rfl
        simp [PfnSystem.update, hp]
      rw [← hh]
      exact h2
    · intro q
      by_cases hq : q = p
      · subst hq
        rw [update_self, hr0]
        have hpr := congrArg Pfdbe.prototypePte (he2.trans he1)
        exact ⟨rfl, by simp, hpr⟩
      · rw [update_of_ne hq, update_of_ne hq]
        have hu := (hot2 q hq).trans (hot1 q hq)
        exact ⟨rfl, id, (Pfdbe.fields_of_unlinked hu).2.2.1⟩

theorem zeroOutMany_refines (k : Nat) (h : Refines s L role) :
    ∃ db' L' role', zeroOutMany k s.db = some db' ∧ Refines { s with db := db' } L' role' ∧
      ∀ p, (role' p).isFree = (role p).isFree ∧ (role p = .outside → role' p = .outside) ∧
        (db'.frame p).prototypePte = (s.db.frame p).prototypePte := by
  induction k generalizing s L role with
  | zero => exact ⟨s.db, L, role, rfl, h, fun _ => ⟨rfl, id, rfl⟩⟩
  | succ k ih =>
    obtain ⟨db1, L1, role1, hrn1, h1, hfr1⟩ := mmZeroOutFirstPFN_refines h
    obtain ⟨db2, L2, role2, hrn2, h2, hfr2⟩ := ih h1
    refine ⟨db2, L2, role2, ?_, h2, fun p =>
      ⟨(hfr2 p).1.trans (hfr1 p).1, fun hp => (hfr2 p).2.1 ((hfr1 p).2.1 hp),
        (hfr2 p).2.2.trans (hfr1 p).2.2⟩⟩
    rw [zeroOutMany, hrn1, bind_some]
    exact hrn2

/-- **`MiInitPMM` succeeds and leaves a database that follows the life cycle**, with every page of the
    free regions counted as free. -/
theorem miInitPMM_refines (frame : Pfn → Pfdbe) (h : MemoryMapOk rs) :
    ∃ db L role, miInitPMM frame rs = some db ∧ Refines (initSystem db rs) L role ∧
      (∀ p, (role p).isFree = true ↔ p ∈ freePfns rs) ∧
      (∀ p, role p ≠ .outside → p < pfnInvalid ∧ (db.frame p).prototypePte = 0) ∧
      db.totalFreePages = (freePfns rs).length := by
  obtain ⟨db, L, role, hrn, hrf, hfr⟩ := zeroOutMany_refines 200 (initPass_refines frame h)
  refine ⟨db.setTotal (initPass frame rs).freePageCount, L, role, ?_, ?_, ?_, ?_, ?_⟩
  · simp only [miInitPMM]
    exact congrArg (Option.map _) hrn
  · exact ⟨hrf.linked.congr rfl fun _ _ _ => ⟨rfl, rfl⟩, hrf.mem_iff, hrf.hold_eq,
      hrf.invalid, hrf.frameOk⟩
  · intro p
    rw [(hfr p).1, initRole_isFree]
  · intro p hp
    have hme : p ∈ freePfns rs ∨ p ∈ reclaimPfns rs := by
      by_contra hme
      rw [not_or] at hme
      exact hp ((hfr p).2.1 (by simp [initRole, hme]))
    refine ⟨h.lt_invalid hme, (hfr p).2.2.trans ?_⟩
    have hin := initPass_inv frame h
    rcases hme with hme | hme
    · exact congrArg Pfdbe.prototypePte (hin.free p hme)
    · exact congrArg Pfdbe.prototypePte (hin.reclaim p hme)
  · exact (initPass_inv frame h).count

/-! ## Every run keeps the lists in shape -/

theorem reaches_refines {db : Pfdb} {C : PfnSystem → PfnAction → Prop} {frame : Pfn → Pfdbe}
    (hC : ∀ s a, C s a → s.Contract a) (h : MemoryMapOk rs) (hin : miInitPMM frame rs = some db)
    (hrn : Reaches PfnSystem.step C (initSystem db rs) s) : ∃ L role, Refines s L role := by
  refine hrn.invariant (I := fun s => ∃ L role, Refines s L role) ?_ ?_
  · obtain ⟨db', L, role, hb, hrf, -⟩ := miInitPMM_refines frame h
    rw [hin] at hb
    exact ⟨L, role, some.inj hb ▸ hrf⟩
  · rintro s a s' ⟨L, role, hrf⟩ ha hs
    exact PfnSystem.step_refines hrf (hC s a ha) hs

/-- **The frame list invariant.** From the state `MiInitPMM` builds on, whatever the order in which
    pages are allocated, freed, referenced, zeroed and written out, the zero, free, standby and
    modified lists are finite, acyclic and consistently linked in both directions, disjoint, free of
    referenced frames, and made of frames of the right type. -/
theorem frameLists_ok (frame : Pfn → Pfdbe) (rs : List LoaderMemoryRegion) (h : MemoryMapOk rs)
    (db : Pfdb) (hinit : miInitPMM frame rs = some db) (s : PfnSystem)
    (hrun : Reaches PfnSystem.step PfnSystem.Contract (initSystem db rs) s) :
    ∃ L, s.db.ListsOk L := by
  obtain ⟨L, role, hrf⟩ := reaches_refines (fun _ _ hC => hC) h hinit hrun
  exact ⟨L, hrf.listsOk⟩

/-- A memory map with one page of the loader between two free regions. -/
def sampleMap : List LoaderMemoryRegion :=
  [⟨0x1000, 0x2000, .free⟩, ⟨0x3000, 0x800, .loaderReclaimable⟩, ⟨0x4000, 0x1000, .free⟩]

theorem sampleMap_ok : MemoryMapOk sampleMap := by
  refine ⟨?_, ?_, ?_⟩ <;> simp [sampleMap, pageSize, pfnInvalid, LoaderMemoryRegion.isTracked]

/-- Run actions on the system that `MiInitPMM` leaves for `sampleMap`. -/
def sampleRun (ok : PfnSystem → PfnAction → Bool) (as : List PfnAction) : Option PfnSystem :=
  (miInitPMM (fun _ => .zero) sampleMap).bind fun db =>
    runChecked PfnSystem.step ok as (initSystem db sampleMap)

/-- The address of a cache entry. -/
def sampleEntry : EntryPtr := ⟨0xFFFF800000001000, by decide⟩

/-- A page becomes part of the cache, is dropped to the standby list, and is used again. -/
def sampleActions : List PfnAction :=
  [.allocate, .setPrototypePte 1 sampleEntry, .free 1, .addReference 1]

theorem frameLists_ok_sample : ∃ s,
    sampleRun PfnSystem.contractTest sampleActions = some s ∧ ∃ L, s.db.ListsOk L := by
  have hsm : (sampleRun PfnSystem.contractTest sampleActions).isSome = true := by decide +kernel
  obtain ⟨s, hs⟩ := isSome_iff_exists.1 hsm
  obtain ⟨db, hin, hrn⟩ := bind_eq_some_iff.1 hs
  exact ⟨s, hs, frameLists_ok _ _ sampleMap_ok db hin s
    (Reaches.of_runChecked PfnSystem.contract_of_test hrn)⟩

/-! ## Who gets a frame -/

/-- **Frames are handed out exclusively.** In every state that the locked steps reach, the reference
    count of a frame in use is the number of its holders. An allocation fails only if the zero, free
    and standby lists are empty, and otherwise gives its caller a frame from one of them that nobody
    held, and touches no other frame. -/
theorem frames_exclusive (frame : Pfn → Pfdbe) (rs : List LoaderMemoryRegion) (h : MemoryMapOk rs)
    (db : Pfdb) (hinit : miInitPMM frame rs = some db) (s : PfnSystem)
    (hrun : Reaches PfnSystem.step PfnSystem.Contract (initSystem db rs) s) :
    (∀ p, 0 < (s.hold p).refs →
      (s.db.frame p).refCount = (s.hold p).refs + (s.hold p).writing.toNat) ∧
    ∀ s', s.step .allocate = some s' →
      (s' = s ∧ ∀ l p, l ≠ .modified → ¬ s.db.OnList l p) ∨
      ∃ p l, l ≠ .modified ∧ s.db.OnList l p ∧ s.hold p = {} ∧
        s'.hold = update s.hold p { refs := 1 } ∧
        (s'.db.frame p).type = .used ∧ (s'.db.frame p).refCount = 1 ∧
        ∀ q, q ≠ p → (s'.db.frame q).unlinked = (s.db.frame q).unlinked := by
  obtain ⟨L, role, hR⟩ := reaches_refines (fun _ _ hC => hC) h hinit hrun
  refine ⟨fun p hp => ?_, fun s' hs => ?_⟩
  · obtain ⟨refs, wr, hr⟩ := hR.inUse_of_refs hp
    have hok := hR.frameOk p
    rw [hr] at hok
    rw [hR.hold_eq p, hr]
    exact hok.2.1
  · rcases PfnSystem.step_moved (a := .allocate) hR trivial hs with
      ⟨rfl, -, hnil⟩ | ⟨p, r', t, L', hst, hother, -, hR'⟩
    · refine .inl ⟨rfl, fun l p hl hon => ?_⟩
      have hp := hR.listed_of_onList hon
      rw [← hR.mem_iff, hnil rfl l hl] at hp
      cases hp
    · obtain ⟨l, hl, hr, rfl, hy, hc⟩ := hst.of_allocate
      refine .inr ⟨p, l, hl, ⟨L l, hR.linked.isList l, (hR.mem_iff l p).2 hr⟩,
        by rw [hR.hold_eq, hr]; rfl, funext fun q => ?_, hy, hc, hother⟩
      rw [hR'.hold_eq, update_apply, update_apply, hR.hold_eq]
      split <;> rfl

theorem frames_exclusive_sample : ∃ s, sampleRun PfnSystem.contractTest sampleActions = some s ∧
    (s.db.frame 1).refCount = (s.hold 1).refs + (s.hold 1).writing.toNat := by
  have hsm : (sampleRun PfnSystem.contractTest sampleActions).map (fun s => (s.hold 1).refs) = some 1 := by
    decide +kernel
  obtain ⟨s, hs, hrefs⟩ := map_eq_some_iff.1 hsm
  obtain ⟨db, hin, hrn⟩ := bind_eq_some_iff.1 hs
  exact ⟨s, hs, (frames_exclusive _ _ sampleMap_ok db hin s
    (Reaches.of_runChecked PfnSystem.contract_of_test hrn)).1 1 (by omega)⟩

end Boron.Mm
