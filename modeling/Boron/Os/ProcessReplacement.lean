import Boron.Os.UserHeapLayout

/-! # Unmapping a process that is replaced (`libboron/source/replace.c`)

`OSReplaceProcess` keeps a few ranges (its code, the PEB, the stack and the context) and frees the gaps
between them. The ranges are sorted in place, rounded to pages, and walked with the end of the user
space behind the last one; `osReplaceProcess_unmaps` says what the walk frees. -/

namespace Boron.Os

open List
open Boron.Rtl (Target)

structure MemoryRange where
  start : Nat
  stop : Nat
  deriving DecidableEq, Repr

/-- The inner loop of `OSDLLSortMemoryRanges`: the range at `i`, and those behind it, after all swaps. -/
def sortPass (x : MemoryRange) : List MemoryRange → MemoryRange × List MemoryRange
  | [] => (x, [])
  | y :: ys =>
    if x.start < y.start then
      let (m, zs) := sortPass x ys
      (m, y :: zs)
    else
      let (m, zs) := sortPass y ys
      (m, x :: zs)

def osdllSortMemoryRanges : (count : Nat) → List MemoryRange → List MemoryRange
  | count + 1, x :: xs =>
    let (m, zs) := sortPass x xs
    m :: osdllSortMemoryRanges count zs
  | _, xs => xs

def pageStart (a : Nat) : Nat := a - a % 0x1000

def pageAlignUp (t : Target) (a : Nat) : Nat := pageStart ((a + (0x1000 - 1)) % 2 ^ t.wordBits)

def osdllFixUpMemoryRanges (t : Target) (ranges : List MemoryRange) : List MemoryRange :=
  ranges.map fun r => ⟨pageStart r.start, pageAlignUp t r.stop⟩

/-- A call of `OSFreeVirtualMemory` with `MEM_RELEASE | MEM_PARTIAL`. -/
structure FreeCall where
  base : Nat
  size : Nat
  deriving DecidableEq, Repr

/-- One turn of the loop of `OSReplaceProcess`: the call that is made, if any, and whether the process
goes on. `fails` tells which calls fail. -/
def freeGap (t : Target) (fails : FreeCall → Bool) (lastStart thisStart : Nat) : List FreeCall × Bool :=
  let size := (thisStart + 2 ^ t.wordBits - lastStart) % 2 ^ t.wordBits
  if size ≠ 0 then ([⟨lastStart, size⟩], !fails ⟨lastStart, size⟩) else ([], true)

/-- The loop, which ends with the gap behind the last range; the process exits after a call that
fails. -/
def unmapLoop (t : Target) (fails : FreeCall → Bool) : (lastStart : Nat) → List MemoryRange →
    List FreeCall × Bool
  | lastStart, [] => freeGap t fails lastStart (userSpaceEnd t)
  | lastStart, r :: ranges =>
    let (made, goes) := freeGap t fails lastStart r.start
    if goes then
      let (calls, goes) := unmapLoop t fails r.stop ranges
      (made ++ calls, goes)
    else (made, false)

/-- The part of `OSReplaceProcess` that unmaps everything but `ranges`. -/
def osReplaceProcess (t : Target) (fails : FreeCall → Bool) (ranges : List MemoryRange) :
    List FreeCall × Bool :=
  unmapLoop t fails 0
    (osdllFixUpMemoryRanges t (osdllSortMemoryRanges ranges.length ranges))

/-! ## What is to be unmapped -/

/-- The address is in a page that the range occupies. -/
def MemoryRange.Occupies (r : MemoryRange) (a : Nat) : Prop :=
  pageStart r.start ≤ a ∧ a < pageStart (r.stop + (0x1000 - 1))

def FreeCall.Frees (c : FreeCall) (a : Nat) : Prop := c.base ≤ a ∧ a < c.base + c.size

/-- Nonempty ranges of the process that occupy pairwise disjoint pages. -/
structure Excluded (t : Target) (ranges : List MemoryRange) : Prop where
  nonempty : ∀ r ∈ ranges, r.start < r.stop
  inUser : ∀ r ∈ ranges, r.stop ≤ userSpaceEnd t
  disjoint : ranges.Pairwise fun r r' => ∀ a, ¬ (r.Occupies a ∧ r'.Occupies a)

/-- The calls free the pages that no range occupies, each one once. -/
structure Unmaps (t : Target) (ranges : List MemoryRange) (calls : List FreeCall) : Prop where
  frees : ∀ a, (∃ c ∈ calls, c.Frees a) ↔ a < userSpaceEnd t ∧ ∀ r ∈ ranges, ¬ r.Occupies a
  once : calls.Pairwise fun c c' => ∀ a, ¬ (c.Frees a ∧ c'.Frees a)
  aligned : ∀ c ∈ calls, c.base % 0x1000 = 0 ∧ c.size % 0x1000 = 0 ∧ c.size ≠ 0
  noWrap : ∀ c ∈ calls, c.base + c.size ≤ userSpaceEnd t

/-! ## The sort -/

section

variable {x m : MemoryRange} {xs zs : List MemoryRange}

theorem sortPass_spec (h : sortPass x xs = (m, zs)) :
    (m :: zs).Perm (x :: xs) ∧ m.start ≤ x.start ∧ ∀ z ∈ zs, m.start ≤ z.start := by
  induction xs generalizing x zs with
  | nil =>
    cases h
    exact ⟨Perm.refl _, le_rfl, fun z hz => absurd hz not_mem_nil⟩
  | cons y ys ih =>
    rw [sortPass] at h
    split at h
    · next hlt =>
      cases h
      obtain ⟨hp, hle, ha⟩ := ih rfl
      exact ⟨((Perm.swap ..).trans (hp.cons y)).trans (Perm.swap ..), hle,
        forall_mem_cons.2 ⟨hle.trans hlt.le, ha⟩⟩
    · next hge =>
      cases h
      obtain ⟨hp, hle, ha⟩ := ih rfl
      have hle := hle.trans (not_lt.1 hge)
      exact ⟨(Perm.swap ..).trans (hp.cons x), hle, forall_mem_cons.2 ⟨hle, ha⟩⟩

/-- The ranges come out in increasing order. -/
theorem osdllSortMemoryRanges_spec (xs : List MemoryRange) :
    (osdllSortMemoryRanges xs.length xs).Perm xs ∧
      (osdllSortMemoryRanges xs.length xs).Pairwise fun r r' => r.start ≤ r'.start := by
  generalize hn : xs.length = n
  induction n generalizing xs with
  | zero =>
    obtain rfl := length_eq_zero_iff.1 hn
    exact ⟨Perm.refl _, .nil⟩
  | succ n ih =>
    cases xs with
    | nil => cases hn
    | cons x xs =>
      rw [osdllSortMemoryRanges]
      obtain ⟨hp, -, ha⟩ := @sortPass_spec x _ xs _ rfl
      have hlength := hp.length_eq
      simp only [length_cons] at hlength hn
      obtain ⟨hrs, hsr⟩ := ih (sortPass x xs).2 (by omega)
      exact ⟨(hrs.cons _).trans hp, pairwise_cons.2 ⟨fun z hz => ha z (hrs.mem_iff.1 hz), hsr⟩⟩

end

/-! ## The walk over the gaps -/

section

variable {t : Target} {fails : FreeCall → Bool} {ranges : List MemoryRange} {last : Nat}

/-- Sorted ranges of pages, each behind the one before it. -/
def InGaps (t : Target) : (last : Nat) → List MemoryRange → Prop
  | last, [] => last % 0x1000 = 0 ∧ last ≤ userSpaceEnd t
  | last, r :: ranges => last % 0x1000 = 0 ∧ last ≤ r.start ∧ r.start % 0x1000 = 0 ∧ r.start < r.stop ∧
    InGaps t r.stop ranges

theorem InGaps.le (h : InGaps t last ranges) : last ≤ userSpaceEnd t := by
  induction ranges generalizing last with
  | nil => exact h.2
  | cons r ranges ih =>
    obtain ⟨-, hle, -, hlt, hrs⟩ := h
    exact (hle.trans hlt.le).trans (ih hrs)

theorem InGaps.start_le (h : InGaps t last ranges) : ∀ r ∈ ranges, last ≤ r.start := by
  induction ranges generalizing last with
  | nil => exact fun r hr => absurd hr not_mem_nil
  | cons r ranges ih =>
    obtain ⟨-, hle, -, hlt, hrs⟩ := h
    exact forall_mem_cons.2 ⟨hle, fun r' hr' => (hle.trans hlt.le).trans (ih hrs r' hr')⟩

/-- What the walk frees from `last` on. -/
structure Walked (t : Target) (last : Nat) (ranges : List MemoryRange) (calls : List FreeCall) :
    Prop where
  frees : ∀ a, (∃ c ∈ calls, c.Frees a) ↔
    (last ≤ a ∧ a < userSpaceEnd t) ∧ ∀ r ∈ ranges, ¬ (r.start ≤ a ∧ a < r.stop)
  once : calls.Pairwise fun c c' => c.base + c.size ≤ c'.base
  call : ∀ c ∈ calls, last ≤ c.base ∧ c.base % 0x1000 = 0 ∧ c.size % 0x1000 = 0 ∧ c.size ≠ 0 ∧
    c.base + c.size ≤ userSpaceEnd t

/-- A turn frees the gap between two places, if there is one. -/
theorem freeGap_spec {this : Nat} (hle : last ≤ this) (he : this ≤ userSpaceEnd t) :
    freeGap t (fun _ => false) last this
      = (if last < this then [⟨last, this - last⟩] else [], true) := by
  have hlt := userSpaceEnd_lt t
  have hsize : (this + 2 ^ t.wordBits - last) % 2 ^ t.wordBits = this - last := by
    rw [Nat.add_comm, Nat.add_sub_assoc hle, Nat.add_mod_left, Nat.mod_eq_of_lt (by omega)]
  rw [freeGap]
  simp only [hsize]
  by_cases hp : last < this
  · rw [if_pos (by omega), if_pos hp, Bool.not_false]
  · rw [if_neg (by omega), if_neg hp]

theorem Walked.gap {this : Nat} (hle : last ≤ this) (he : this ≤ userSpaceEnd t)
    (hls : last % 0x1000 = 0) (hh : this % 0x1000 = 0) {calls : List FreeCall}
    (hcs : ∀ c ∈ calls, this ≤ c.base ∧ c.base % 0x1000 = 0 ∧ c.size % 0x1000 = 0 ∧ c.size ≠ 0 ∧
      c.base + c.size ≤ userSpaceEnd t)
    (hon : calls.Pairwise fun c c' => c.base + c.size ≤ c'.base)
    (hfr : ∀ a, (last ≤ a ∧ a < this ∨ ∃ c ∈ calls, c.Frees a) ↔
      (last ≤ a ∧ a < userSpaceEnd t) ∧ ∀ r ∈ ranges, ¬ (r.start ≤ a ∧ a < r.stop)) :
    Walked t last ranges ((if last < this then [⟨last, this - last⟩] else []) ++ calls) := by
  split
  · next hp =>
    refine ⟨fun a => ?_, pairwise_cons.2 ⟨fun c hc => ?_, hon⟩, forall_mem_cons.2 ⟨?_, fun c hc => ?_⟩⟩
    · rw [← hfr, singleton_append]
      simp only [mem_cons, exists_eq_or_imp, FreeCall.Frees, Nat.add_sub_cancel' hle]
    · have hcl := hcs c hc
      dsimp only
      omega
    · dsimp only
      omega
    · have hcl := hcs c hc
      omega
  · next hnn =>
    refine ⟨fun a => ?_, hon, fun c hc => ?_⟩
    · rw [← hfr, nil_append, or_iff_right (by omega)]
    · have hcl := hcs c hc
      omega

theorem unmapLoop_spec (h : InGaps t last ranges) :
    (unmapLoop t (fun _ => false) last ranges).2 = true ∧
      Walked t last ranges (unmapLoop t (fun _ => false) last ranges).1 := by
  have hal : userSpaceEnd t % 0x1000 = 0 := by cases t <;> rfl
  induction ranges generalizing last with
  | nil =>
    have hw : Walked t last [] (_ ++ []) :=
      .gap h.2 le_rfl h.1 hal (fun c hc => absurd hc not_mem_nil) .nil fun a => by simp
    rw [unmapLoop, freeGap_spec h.2 le_rfl]
    rw [append_nil] at hw
    exact ⟨rfl, hw⟩
  | cons r ranges ih =>
    obtain ⟨hmd, hle, hst, hlt, hrs⟩ := h
    have hp := hrs.le
    obtain ⟨hgs, hw⟩ := ih hrs
    rw [unmapLoop, freeGap_spec hle (by omega)]
    refine ⟨hgs, .gap hle (by omega) hmd hst (fun c hc => ?_) hw.once fun a => ?_⟩
    · have hcl := hw.call c hc
      omega
    · rw [hw.frees, forall_mem_cons]
      constructor
      · rintro (ha | ⟨ha, hrs'⟩)
        · refine ⟨by omega, by omega, fun r' hr' hin => ?_⟩
          have haf := hrs.start_le r' hr'
          omega
        · exact ⟨by omega, by omega, hrs'⟩
      · rintro ⟨hb, hot, hrs'⟩
        by_cases ha : a < r.start
        · exact .inl ⟨hb.1, ha⟩
        · exact .inr ⟨by omega, hrs'⟩

/-- A call that fails ends the walk after the calls before it. -/
theorem unmapLoop_prefix : (unmapLoop t fails last ranges).1 <+:
    (unmapLoop t (fun _ => false) last ranges).1 := by
  have hmd : ∀ last this, (freeGap t fails last this).1 = (freeGap t (fun _ => false) last this).1 ∧
      (freeGap t (fun _ => false) last this).2 = true := by
    intro last this
    rw [freeGap, freeGap]
    split <;> exact ⟨rfl, rfl⟩
  induction ranges generalizing last with
  | nil =>
    rw [unmapLoop, unmapLoop, (hmd ..).1]
  | cons r ranges ih =>
    obtain ⟨hsm, hgs⟩ := hmd last r.start
    simp only [unmapLoop, hgs, if_true, ← hsm]
    split
    · exact (prefix_append_right_inj _).2 ih
    · exact prefix_append ..

end

/-! ## The ranges of a process -/

section

variable {t : Target} {ranges : List MemoryRange}

theorem pageStart_spec (a : Nat) : pageStart a % 0x1000 = 0 ∧ pageStart a ≤ a ∧ a < pageStart a + 0x1000 := by
  rw [pageStart]
  omega

theorem pageAlignUp_eq {a : Nat} (h : a ≤ userSpaceEnd t) :
    pageAlignUp t a = pageStart (a + (0x1000 - 1)) := by
  have hrm : userSpaceEnd t + 0x1000 ≤ 2 ^ t.wordBits := by cases t <;> decide
  rw [pageAlignUp, Nat.mod_eq_of_lt (by omega)]

theorem Excluded.perm (h : Excluded t ranges) {sor : List MemoryRange} (hp : sor.Perm ranges) :
    Excluded t sor where
  nonempty r hr := h.nonempty r (hp.mem_iff.1 hr)
  inUser r hr := h.inUser r (hp.mem_iff.1 hr)
  disjoint := (hp.pairwise_iff fun hd a ha => hd a ha.symm).2 h.disjoint

theorem Excluded.occupies_start (h : Excluded t ranges) {r : MemoryRange} (hr : r ∈ ranges) :
    r.Occupies (pageStart r.start) := by
  have hlt := h.nonempty r hr
  have hsr := pageStart_spec r.start
  have hst := pageStart_spec (r.stop + (0x1000 - 1))
  exact ⟨le_rfl, by omega⟩

/-- Rounding ranges that are sorted leaves them in order. -/
theorem Excluded.inGaps (h : Excluded t ranges) (hsr : ranges.Pairwise fun r r' => r.start ≤ r'.start)
    {last : Nat} (hls : last % 0x1000 = 0) (hle : last ≤ userSpaceEnd t)
    (hfs : ∀ r ∈ ranges, last ≤ pageStart r.start) :
    InGaps t last (osdllFixUpMemoryRanges t ranges) := by
  have hal : userSpaceEnd t % 0x1000 = 0 := by cases t <;> rfl
  induction ranges generalizing last with
  | nil => exact ⟨hls, hle⟩
  | cons r ranges ih =>
    obtain ⟨hnm, hnm'⟩ := forall_mem_cons.1 h.nonempty
    obtain ⟨hin, hin'⟩ := forall_mem_cons.1 h.inUser
    obtain ⟨hds, hds'⟩ := pairwise_cons.1 h.disjoint
    obtain ⟨hmn, hsr'⟩ := pairwise_cons.1 hsr
    have hst := pageStart_spec r.start
    have hp := pageStart_spec (r.stop + (0x1000 - 1))
    have hu := pageAlignUp_eq hin
    refine ⟨hls, hfs r mem_cons_self, hst.1, ?_, ?_⟩
    · dsimp only
      omega
    have hmd : pageAlignUp t r.stop % 0x1000 = 0 := by omega
    have he : pageAlignUp t r.stop ≤ userSpaceEnd t := by omega
    refine ih ⟨hnm', hin', hds'⟩ hsr' hmd he fun r' hr' => ?_
    have hst' := pageStart_spec r'.start
    have hp' := pageStart_spec (r'.stop + (0x1000 - 1))
    have hmn' := hmn r' hr'
    have hnm'' := hnm' r' hr'
    -- the first page of the later range is not in this one
    have ha := hds r' hr' (pageStart r'.start)
    unfold MemoryRange.Occupies at ha
    dsimp only
    omega

/-- **The calls that `OSReplaceProcess` makes are, if none of them fails, those that free all pages of the
user space but the ones of its ranges, each once; the ranges have been sorted before. If a call fails,
they are the first ones of these calls.** -/
theorem osReplaceProcess_unmaps (fails : FreeCall → Bool) (h : Excluded t ranges) :
    (osdllSortMemoryRanges ranges.length ranges).Perm ranges ∧
      (osdllSortMemoryRanges ranges.length ranges).Pairwise (fun r r' => r.start < r'.start) ∧
      ∃ calls, Unmaps t ranges calls ∧ (osReplaceProcess t fails ranges).1 <+: calls ∧
        ((∀ c, fails c = false) → osReplaceProcess t fails ranges = (calls, true)) := by
  obtain ⟨hp, hsr⟩ := osdllSortMemoryRanges_spec ranges
  have he := h.perm hp
  have hgp := he.inGaps hsr rfl (Nat.zero_le _) fun _ _ => Nat.zero_le _
  obtain ⟨hgs, hw⟩ := unmapLoop_spec hgp
  refine ⟨hp, ?_, _, ⟨fun a => ?_, ?_, fun c hc => ?_, fun c hc => ?_⟩, unmapLoop_prefix, fun hnn => ?_⟩
  · refine (hsr.and he.disjoint).imp_of_mem fun {r r'} hr hr' hrr => ?_
    refine lt_of_le_of_ne hrr.1 fun heq => hrr.2 (pageStart r.start) ?_
    have hoc : ∀ x ∈ osdllSortMemoryRanges ranges.length ranges, x.Occupies (pageStart x.start) :=
      fun x hx => he.occupies_start hx
    exact ⟨hoc r hr, heq ▸ hoc r' hr'⟩
  · rw [hw.frees, osdllFixUpMemoryRanges, forall_mem_map]
    refine and_congr (and_iff_right (Nat.zero_le _)) ?_
    rw [← forall_congr' fun r => imp_congr_left (hp.mem_iff (a := r))]
    refine forall₂_congr fun r hr => not_congr ?_
    rw [pageAlignUp_eq (he.inUser r hr), MemoryRange.Occupies]
  · exact hw.once.imp fun hle a ha => by
      obtain ⟨h1, h2⟩ := ha
      unfold FreeCall.Frees at h1 h2
      omega
  · have hcl := hw.call c hc
    omega
  · exact (hw.call c hc).2.2.2.2
  · obtain rfl : fails = fun _ => false := funext hnn
    exact Prod.ext rfl hgs

theorem osReplaceProcess_unmaps_first_and_last :
    ∃ calls, Unmaps .amd64 [⟨0x7ffffffff123, 0x800000000000⟩, ⟨0x5008, 0x6010⟩, ⟨0, 0x1000⟩] calls ∧
      osReplaceProcess .amd64 (fun _ => false)
        [⟨0x7ffffffff123, 0x800000000000⟩, ⟨0x5008, 0x6010⟩, ⟨0, 0x1000⟩] = (calls, true) := by
  obtain ⟨-, -, calls, hu, -, ha⟩ := @osReplaceProcess_unmaps .amd64
    [⟨0x7ffffffff123, 0x800000000000⟩, ⟨0x5008, 0x6010⟩, ⟨0, 0x1000⟩] (fun _ => false)
    ⟨by decide, by decide, by
      simp only [pairwise_cons, forall_mem_cons, MemoryRange.Occupies, pageStart]
      grind⟩
  exact ⟨calls, hu, ha fun _ => rfl⟩

end

end Boron.Os
