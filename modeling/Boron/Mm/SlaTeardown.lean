import Boron.Mm.SlaMap
import Mathlib.Data.Nat.Count

/-! # Tearing down a sparse linear array

`MmDeinitializeSla` hands every entry to `FreeEntryFunc` and walks the pages of the four indirect
levels, blanking each slot as it reads it. `MmpFreeSlaIntermediateLevel` frees the page behind a
slot after it has walked it, whether or not the slot held one, and nobody frees the page it was
called on by `MmDeinitializeSla`: the root of a level is walked and kept. -/

namespace Boron.Mm.Sla

open Function List

variable {w : Width}

/-- What the teardown calls: `FreeEntryFunc` on an entry, `MmFreePhysicalPage` on a page frame
number. -/
inductive Call (w : Width)
  | freeEntry (entry : Entry w)
  | freePage (pfn : Mmpfn)
  deriving DecidableEq

namespace State

/-- One turn of `MmpFreeSlaFinalLevel`. -/
def finalTurn (pfn : Mmpfn) (r : State w × List (Call w)) (i : Nat) : State w × List (Call w) :=
  (r.1.store pfn i (noData w), r.2 ++ [.freeEntry ((r.1.page pfn).entry w i)])

def mmpFreeSlaFinalLevel (pfn : Mmpfn) (r : State w × List (Call w)) :
    State w × List (Call w) :=
  (List.range (entriesPerPage w)).foldl (finalTurn pfn) r

/-- One turn of `MmpFreeSlaIntermediateLevel` above the final level, where `free` is the call it
makes one level down. -/
def intermediateTurn (free : Mmpfn → State w × List (Call w) → State w × List (Call w))
    (pfn : Mmpfn) (r : State w × List (Call w)) (i : Nat) : State w × List (Call w) :=
  let entry := r.1.page pfn i
  let r := (r.1.link pfn i pfnInvalid, r.2)
  let r := if entry ≠ pfnInvalid then free entry r else r
  (r.1, r.2 ++ [.freePage entry])

def mmpFreeSlaIntermediateLevel :
    (levelNumber : Nat) → Mmpfn → State w × List (Call w) → State w × List (Call w)
  | 0, pfn, r => if pfn = pfnInvalid then r else mmpFreeSlaFinalLevel pfn r
  | level + 1, pfn, r =>
    if pfn = pfnInvalid then r
    else
      (List.range pfnsPerPage).foldl (intermediateTurn (mmpFreeSlaIntermediateLevel level) pfn) r

/-- `MmDeinitializeSla`: the memory it leaves behind and the calls it made, in order. -/
def mmDeinitializeSla (s : State w) : State w × List (Call w) :=
  (List.range indirectLevels).foldl
    (fun r level => mmpFreeSlaIntermediateLevel level (r.1.indirect level) r)
    (s, (List.range directEntryCount).map fun i => .freeEntry (s.direct i))

/-! ## What a teardown should do -/

/-- The pages the array has for its indirect levels: the roots, the pages of page frame numbers
below them and the pages of entries. -/
def IsPage (s : State w) (pfn : Mmpfn) : Prop :=
  ∃ level up, up.length ≤ level ∧ (∀ d ∈ up, d < pfnsPerPage) ∧ s.tree.node level up = some pfn

/-- Every assigned entry is handed to `FreeEntryFunc` once, every page of the array is freed once,
and `MmFreePhysicalPage` is only called on pages. -/
structure TornDown (s : State w) (calls : List (Call w)) : Prop where
  entries : ∀ v, v ≠ noData w →
    calls.count (.freeEntry v) = Nat.count (fun i => s.value i = v) (indexLimit w)
  pages : ∀ pfn, s.IsPage pfn → calls.count (.freePage pfn) = 1
  valid : Call.freePage pfnInvalid ∉ calls

/-- No indirect level has a root yet. -/
def DirectOnly (s : State w) : Prop := ∀ level < indirectLevels, s.indirect level = pfnInvalid

/-! ## The walk only sees pages below the roots -/

/-- `s'` is `s` with some words of its pages blanked. -/
structure Blanked (s s' : State w) : Prop where
  indirect : s'.indirect = s.indirect
  page : ∀ pfn i, s'.page pfn i = s.page pfn i ∨ s'.page pfn i = pfnInvalid

theorem Blanked.refl (s : State w) : s.Blanked s := ⟨rfl, fun _ _ => .inl rfl⟩

variable {s : State w}

variable {s' : State w}

theorem Blanked.link (h : s.Blanked s') (pfn : Mmpfn) (i : Nat) : s.Blanked (s'.link pfn i pfnInvalid) where
  indirect := h.indirect
  page q j := by
    by_cases hq : q = pfn
    · subst hq
      by_cases hj : j = i
      · simp [State.link, hj]
      · simpa [State.link, hj] using h.page q j
    · simpa [State.link, hq] using h.page q j

/-- A blanked entry is one or two blanked words. -/
theorem Page.setEntry_noData (page : Page) (i j : Nat) :
    page.setEntry w i (noData w) j = page j ∨ page.setEntry w i (noData w) j = pfnInvalid := by
  cases w with
  | bits32 =>
    by_cases hj : j = i
    · exact .inr (by rw [hj]; exact update_self i _ page)
    · exact .inl (update_of_ne hj _ page)
  | bits64 =>
    have hw : BitVec.extractLsb' 0 32 (noData .bits64) = pfnInvalid := by decide
    have hh : BitVec.extractLsb' 32 32 (noData .bits64) = pfnInvalid := by decide
    simp only [Page.setEntry, hw, hh, update_apply]
    split
    · exact .inr rfl
    · split
      · exact .inr rfl
      · exact .inl rfl

theorem Blanked.store (h : s.Blanked s') (pfn : Mmpfn) (i : Nat) :
    s.Blanked (s'.store pfn i (noData w)) where
  indirect := h.indirect
  page q j := by
    by_cases hq : q = pfn
    · subst hq
      rcases Page.setEntry_noData (w := w) (s'.page q) i j with heq | heq
      · simpa [State.store, heq] using h.page q j
      · exact .inr (by simpa [State.store] using heq)
    · simpa [State.store, hq] using h.page q j

/-- A page that hangs below a root. -/
def Below (s : State w) (pfn : Mmpfn) : Prop :=
  ∃ level up, up ≠ [] ∧ up.length ≤ level ∧ s.tree.node level up = some pfn

/-- What the walk of a part of the array of `s` may have done so far. -/
structure Walked (s : State w) (r : State w × List (Call w)) : Prop where
  blanked : s.Blanked r.1
  freed : ∀ pfn, Call.freePage pfn ∈ r.2 → pfn = pfnInvalid ∨ s.Below pfn

variable {r : State w × List (Call w)}

theorem Walked.final (h : s.Walked r) (pfn : Mmpfn) : s.Walked (mmpFreeSlaFinalLevel pfn r) := by
  unfold mmpFreeSlaFinalLevel
  induction List.range (entriesPerPage w) generalizing r with
  | nil => exact h
  | cons i rest ih =>
    refine ih ⟨h.blanked.store pfn i, fun q hq => ?_⟩
    rcases mem_append.1 hq with hq | hq
    · exact h.freed q hq
    · simp at hq

variable {level : Nat}

variable {i : Nat} {up : List Nat} {pfn : Mmpfn}

theorem Walked.below (h : s.Walked r) (hnd : s.tree.node level up = some pfn)
    (hi : r.1.page pfn i ≠ pfnInvalid) :
    s.tree.node level (i :: up) = some (r.1.page pfn i) := by
  rcases h.blanked.page pfn i with heq | heq
  · rw [PageTree.node_cons_of_some hnd, heq]
    exact child_of_present (heq ▸ hi)
  · exact absurd heq hi

/-- **The walk.** Called on a page at some path, it frees nothing but pages at longer paths. -/
theorem Walked.intermediate (h : s.Walked r) {n : Nat} (hln : up.length + n ≤ level)
    (hnd : s.tree.node level up = some pfn) :
    s.Walked (mmpFreeSlaIntermediateLevel n pfn r) := by
  induction n generalizing r up pfn with
  | zero =>
    rw [mmpFreeSlaIntermediateLevel]
    split
    · exact h
    · exact h.final pfn
  | succ n ih =>
    rw [mmpFreeSlaIntermediateLevel]
    split
    · exact h
    · induction List.range pfnsPerPage generalizing r with
      | nil => exact h
      | cons i rest ihr =>
        refine ihr ?_
        have hb : s.Walked (r.1.link pfn i pfnInvalid, r.2) :=
          ⟨h.blanked.link pfn i, h.freed⟩
        unfold intermediateTurn
        by_cases hi : r.1.page pfn i = pfnInvalid
        · simp only [hi, ne_eq, not_true_eq_false, if_false]
          refine ⟨hb.blanked, fun q hq => ?_⟩
          rcases mem_append.1 hq with hq | hq
          · exact hb.freed q hq
          · exact .inl (by simpa using hq)
        · simp only [ne_eq, hi, not_false_eq_true, if_true]
          have hc := h.below hnd hi
          have hln' : (i :: up).length + n ≤ level := by
            rw [length_cons]
            omega
          have hsb := ih hb hln' hc
          refine ⟨hsb.blanked, fun q hq => ?_⟩
          rcases mem_append.1 hq with hq | hq
          · exact hsb.freed q hq
          · have hq' : q = r.1.page pfn i := by simpa using hq
            refine .inr ⟨level, i :: up, cons_ne_nil i up, by omega, hq' ▸ hc⟩

/-- The whole teardown frees nothing but pages below the roots, and `PFN_INVALID`. -/
theorem walked_mmDeinitializeSla (s : State w) : s.Walked s.mmDeinitializeSla := by
  have hst : s.Walked (s, (List.range directEntryCount).map fun i => Call.freeEntry (s.direct i)) :=
    ⟨Blanked.refl s, fun pfn hp => by simp at hp⟩
  have hlv : ∀ lev : List Nat, (∀ level ∈ lev, level < indirectLevels) →
      ∀ r, s.Walked r → s.Walked (lev.foldl
        (fun r level => mmpFreeSlaIntermediateLevel level (r.1.indirect level) r) r) := by
    intro lev hlt
    induction lev with
    | nil => exact fun r hr => hr
    | cons level rest ih =>
      intro r hr
      refine ih (fun l hl => hlt l (mem_cons_of_mem _ hl)) _ ?_
      beta_reduce
      rw [hr.blanked.indirect]
      by_cases hrt : s.indirect level = pfnInvalid
      · cases level <;> simpa [mmpFreeSlaIntermediateLevel, hrt] using hr
      · have hnd : s.tree.node level [] = some (s.indirect level) :=
          if_pos ⟨hlt level mem_cons_self, hrt⟩
        exact hr.intermediate (by simp) hnd
  exact hlv _ (fun level h => mem_range.1 h) _ hst

theorem Proper.root_not_freed (hs : s.Proper)
    (hlv : level < indirectLevels) (hrt : s.indirect level ≠ pfnInvalid) :
    Call.freePage (s.indirect level) ∉ s.mmDeinitializeSla.2 := by
  intro hfreed
  have hnd : s.tree.node level [] = some (s.indirect level) := if_pos ⟨hlv, hrt⟩
  rcases (walked_mmDeinitializeSla s).freed _ hfreed with hin | ⟨level', up, hu, hln, hb⟩
  · exact hrt hin
  · have he : ([] : List Nat).length ≤ level := Nat.zero_le level
    exact hu (hs.unique he hln hnd hb).2.symm

/-- So a level that has a root makes the teardown leak it. -/
theorem Proper.not_tornDown (hs : s.Proper) (h : ¬ s.DirectOnly) : ¬ s.TornDown s.mmDeinitializeSla.2 := by
  intro htr
  simp only [DirectOnly, not_forall] at h
  obtain ⟨level, hlv, hrt⟩ := h
  have hp : s.IsPage (s.indirect level) :=
    ⟨level, [], Nat.zero_le level, by simp, if_pos ⟨hlv, hrt⟩⟩
  have hz := count_eq_zero.2 (hs.root_not_freed hlv hrt)
  have hon := htr.pages _ hp
  omega

/-! ## Without indirect levels -/

theorem DirectOnly.node (h : s.DirectOnly) (level : Nat) (up : List Nat) : s.tree.node level up = none := by
  induction up with
  | nil => exact if_neg fun hr => hr.2 (h level hr.1)
  | cons d up ih => rw [PageTree.node, ih, Option.bind_none]

theorem DirectOnly.value (h : s.DirectOnly) (hi : directEntryCount ≤ i) : s.value i = noData w := by
  rw [State.value, if_neg (Nat.not_lt.2 hi)]
  cases locate w i with
  | none => rfl
  | some x => simp only [entryAt, pageAt, h.node, Option.elim_none]

theorem DirectOnly.calls (h : s.DirectOnly) :
    s.mmDeinitializeSla.2 = (List.range directEntryCount).map fun i => .freeEntry (s.direct i) := by
  have hsk : ∀ (level : Nat) (r : State w × List (Call w)),
      mmpFreeSlaIntermediateLevel level pfnInvalid r = r := by
    intro level r
    cases level <;> simp [mmpFreeSlaIntermediateLevel]
  have hlv : ∀ lev : List Nat, (∀ level ∈ lev, level < indirectLevels) →
      ∀ calls : List (Call w), lev.foldl
        (fun r level => mmpFreeSlaIntermediateLevel level (r.1.indirect level) r) (s, calls)
        = (s, calls) := by
    intro lev hlt calls
    induction lev with
    | nil => rfl
    | cons level rest ih =>
      rw [foldl_cons, h level (hlt level mem_cons_self), hsk]
      exact ih fun l hl => hlt l (mem_cons_of_mem _ hl)
  rw [mmDeinitializeSla, hlv _ fun level hl => mem_range.1 hl]

theorem DirectOnly.tornDown (h : s.DirectOnly) : s.TornDown s.mmDeinitializeSla.2 where
  entries := by
    intro v hv
    have hlm : indexLimit w = directEntryCount + (indexLimit w - directEntryCount) := by
      unfold indexLimit
      omega
    have hrs : ∀ n, Nat.count (fun k => s.value (directEntryCount + k) = v) n = 0 := by
      intro n
      refine Nat.count_iff_forall_not.2 fun k _ hk => hv ?_
      rw [← hk, h.value (Nat.le_add_right _ _)]
    have hdr : ∀ n ≤ directEntryCount, (((List.range n).map fun i =>
        Call.freeEntry (s.direct i)).count (.freeEntry v)) = Nat.count (fun i => s.value i = v) n := by
      intro n hn
      induction n with
      | zero => simp
      | succ n ih =>
        have hvl : s.value n = s.direct n := if_pos hn
        rw [range_succ, map_append, count_append, ih (Nat.le_of_lt hn), Nat.count_succ, hvl]
        simp [count_singleton]
    rw [h.calls, hlm, Nat.count_add, hrs, Nat.add_zero]
    exact hdr _ (Nat.le_refl _)
  pages := by
    rintro pfn ⟨level, up, -, -, hnd⟩
    rw [h.node] at hnd
    cases hnd
  valid := by
    rw [h.calls]
    simp

end State

namespace History

/-- For every sparse array that assignments can make, whatever pages the allocator gave or refused,
the teardown does what it should exactly when no indirect level has a root: a root that was made is
never freed. -/
theorem teardown_right_iff_direct (s : State w) (actions : List (Action w)) :
    let array := ((start s).run actions).state
    array.TornDown array.mmDeinitializeSla.2 ↔ array.DirectOnly := by
  intro array
  have hp : array.Proper := ((Inv.start s).run actions).proper
  refine ⟨fun htr => ?_, fun h => h.tornDown⟩
  by_contra hrt
  exact hp.not_tornDown hrt htr

/-- One entry past the direct ones, at a page frame that the allocator had free. -/
theorem teardown_leaks_root : ¬ ∀ (s : State .bits64) (actions : List (Action .bits64)),
      ((start s).run actions).state.TornDown ((start s).run actions).state.mmDeinitializeSla.2 := by
  intro ha
  let s : State .bits64 := ⟨fun _ => 0, fun _ => 0, fun _ _ => 0, []⟩
  let actions : List (Action .bits64) := [.assign 64 5 fun _ => some 7]
  have hp : ((start s).run actions).state.Proper := ((Inv.start s).run actions).proper
  have hrt : ((start s).run actions).state.indirect 0 = 7 := by decide
  refine hp.not_tornDown (fun hdr => ?_) (ha s actions)
  have hin := hdr 0 (by decide)
  rw [hrt] at hin
  exact absurd hin (by decide)

end History
end Boron.Mm.Sla
