import Boron.Mm.PfnInit
import Mathlib.Data.Set.Card

/-! # The free page counter

`MmTotalFreePages` is meant to be the number of frames on the zero, free and standby lists. It is
raised where a frame is put on one of them and lowered where `MmpInitializePfn` takes one out, but
`MiDetransitionPfn` takes a frame off the standby list without lowering it. As long as no standby
page is brought back that way the counter is exact (`freePages_accounted`). -/

namespace Boron.Mm

open Function Option

/-! ## Counting frames by role -/

/-- The frames that count as free. -/
def freeFrames (role : Pfn → Role) : Set Pfn := {p | (role p).isFree = true}

/-- The counter is the number of frames on the zero, free and standby lists and of those that
    `MmZeroOutFirstPFN` holds between its two halves. -/
def PfnSystem.Accounted (s : PfnSystem) : Prop :=
  ∃ L, s.db.ListsOk L ∧ s.db.totalFreePages =
    (L .zero).length + (L .free).length + (L .standby).length +
      Set.ncard {p | (s.hold p).zeroing = true}

variable {s s' : PfnSystem} {L : PfnList → List Pfn} {role : Pfn → Role} {a : PfnAction} {p : Pfn}
  {r r' : Role} {e e' : Pfdbe} {t : Tally}

/-- What a transition does to the counter is what it does to the set of free frames, unless it brings
    back a standby page. -/
theorem FrameStep.isFree (h : FrameStep p a r e r' e' t) (hr : FrameOk r e)
    (hno : a = .addReference p → e.type ≠ .transition) :
    match t with
    | .same => r'.isFree = r.isFree
    | .up => r.isFree = false ∧ r'.isFree = true
    | .down => r.isFree = true ∧ r'.isFree = false := by
  cases h with
  | allocate l e hl =>
    refine ⟨?_, rfl⟩
    cases l with
    | zero | free | standby => rfl
    | modified => exact absurd rfl hl
  | detransition e l hl =>
    rcases hl with rfl | rfl
    · exact absurd hr.1 (hno rfl)
    · rfl
  | _ => first | rfl | exact ⟨rfl, rfl⟩

/-- The database follows the life cycle and the counter is the number of free frames. -/
structure Counted (s : PfnSystem) (L : PfnList → List Pfn) (role : Pfn → Role) : Prop where
  refines : Refines s L role
  bounded : ∀ p, role p ≠ .outside → p < pfnInvalid
  total : s.db.totalFreePages = (freeFrames role).ncard

theorem Counted.subset_range (h : Counted s L role) :
    freeFrames role ⊆ (Finset.range pfnInvalid : Finset Pfn) := by
  intro p hp
  rw [Finset.coe_range, Set.mem_Iio]
  refine h.bounded p fun hr => ?_
  simp [freeFrames, hr, Role.isFree] at hp

theorem Counted.finite (h : Counted s L role) : (freeFrames role).Finite :=
  (Finset.finite_toSet _).subset h.subset_range

theorem Counted.total_lt (h : Counted s L role) : s.db.totalFreePages + 1 < wordSize := by
  have hc := Set.ncard_le_ncard h.subset_range (Finset.finite_toSet _)
  rw [Set.ncard_coe_finset, Finset.card_range, ← h.total] at hc
  unfold pfnInvalid at hc
  unfold wordSize
  omega

theorem freeFrames_update_same (h : r'.isFree = (role p).isFree) :
    freeFrames (update role p r') = freeFrames role := by
  ext q
  by_cases hq : q = p
  · subst hq
    simp [freeFrames, h]
  · simp [freeFrames, update_of_ne hq]

theorem freeFrames_update_insert (h : r'.isFree = true) :
    freeFrames (update role p r') = insert p (freeFrames role) := by
  ext q
  by_cases hq : q = p
  · subst hq
    simp [freeFrames, h]
  · simp [freeFrames, hq]

theorem freeFrames_update_diff (h : r'.isFree = false) :
    freeFrames (update role p r') = freeFrames role \ {p} := by
  ext q
  by_cases hq : q = p
  · subst hq
    simp [freeFrames, h]
  · simp [freeFrames, hq]

/-! ## One step -/

/-- A step that does not bring back a standby page keeps the counter exact. -/
theorem Counted.step (h : Counted s L role) (hC : s.Contract a)
    (hno : ∀ p, a = .addReference p → (s.db.frame p).type ≠ .transition)
    (hs : s.step a = some s') : ∃ L' role', Counted s' L' role' := by
  rcases PfnSystem.step_moved h.refines hC hs with ⟨rfl, -⟩ | ⟨p, r', t, L', hst, -, htl, hrf⟩
  · exact ⟨L, role, h⟩
  have hfr := hst.isFree (frameOk_unlinked.2 (h.refines.frameOk p)) (hno p)
  refine ⟨L', _, hrf, ?_, ?_⟩
  · intro q hq
    by_cases hqp : q = p
    · subst hqp
      refine h.bounded q fun hr => hq ?_
      rw [hr] at hst
      rw [update_self, hst.outside]
    · rw [update_of_ne hqp] at hq
      exact h.bounded q hq
  · rw [htl]
    cases t with
    | same => rw [freeFrames_update_same hfr, ← h.total]; rfl
    | up =>
      have hp : p ∉ freeFrames role := by simp [freeFrames, hfr.1]
      rw [freeFrames_update_insert hfr.2, Set.ncard_insert_of_notMem hp h.finite, ← h.total]
      exact addW_of_lt h.total_lt
    | down =>
      have hp : p ∈ freeFrames role := hfr.1
      have hpos := (Set.ncard_pos h.finite).2 ⟨p, hp⟩
      rw [freeFrames_update_diff hfr.2, Set.ncard_sdiff_singleton_of_mem hp, ← h.total]
      exact subW_of_le (by rw [h.total]; omega) (Nat.lt_of_succ_lt h.total_lt)

/-- The counter moves by at most one at a time: it neither underflows nor overflows. -/
def PfnSystem.Steady (s : PfnSystem) : Prop :=
  ∀ a s', s.Contract a → s.step a = some s' →
    s'.db.totalFreePages = s.db.totalFreePages ∨
      s'.db.totalFreePages = s.db.totalFreePages + 1 ∨
      s'.db.totalFreePages + 1 = s.db.totalFreePages

theorem Counted.steady (h : Counted s L role) : s.Steady := by
  intro a s' hC hs
  rcases PfnSystem.step_moved h.refines hC hs with ⟨rfl, -⟩ | ⟨p, r', t, L', hst, -, htl, -⟩
  · exact .inl rfl
  rw [htl]
  cases t with
  | same => exact .inl rfl
  | up => exact .inr (.inl (addW_of_lt h.total_lt))
  | down =>
    have hp : p ∈ freeFrames role := by
      have hr : (role p).isFree = true := by
        generalize role p = r at hst
        generalize (s.db.frame p).unlinked = e at hst
        generalize (s'.db.frame p).unlinked = e' at hst
        cases hst with
        | allocate l e hl =>
          cases l with
          | zero | free | standby => rfl
          | modified => exact absurd rfl hl
      exact hr
    have hpos := (Set.ncard_pos h.finite).2 ⟨p, hp⟩
    rw [← h.total] at hpos
    refine .inr (.inr ?_)
    have hb : subW s.db.totalFreePages 1 = s.db.totalFreePages - 1 :=
      subW_of_le hpos (Nat.lt_of_succ_lt h.total_lt)
    show subW s.db.totalFreePages 1 + 1 = s.db.totalFreePages
    omega

theorem ncard_mem_list {l : List Pfn} (h : l.Nodup) : Set.ncard {p | p ∈ l} = l.length := by
  rw [← List.toFinset_card_of_nodup h, ← Set.ncard_coe_finset]
  congr 1
  ext p
  simp

/-- The frames that count as free are those of the three lists and those being zeroed. -/
theorem Counted.accounted (h : Counted s L role) : s.Accounted := by
  have hme := h.refines.mem_iff
  have hnd : ∀ l, (L l).Nodup := fun l => (h.refines.linked.isList l).nodup
  have hz : {p | (s.hold p).zeroing = true} = {p | role p = .zeroing} := by
    ext p
    rw [Set.mem_ofPred_eq, Set.mem_ofPred_eq, h.refines.hold_eq]
    cases role p <;> simp [Role.hold]
  have hu : freeFrames role = (({p | p ∈ L .zero} ∪ {p | p ∈ L .free}) ∪
      {p | p ∈ L .standby}) ∪ {p | role p = .zeroing} := by
    ext p
    simp only [freeFrames, Set.mem_ofPred_eq, Set.mem_union, hme]
    rcases role p with _ | l | _ | _
    · simp [Role.isFree]
    · cases l <;> simp [Role.isFree]
    · simp [Role.isFree]
    · simp [Role.isFree]
  have hfn := h.finite
  rw [hu] at hfn
  obtain ⟨⟨⟨hf1, hf2⟩, hf3⟩, hf4⟩ : ((_ ∧ _) ∧ _) ∧ _ := by
    simpa only [Set.finite_union] using hfn
  refine ⟨L, h.refines.listsOk, ?_⟩
  rw [h.total, hu, hz, Set.ncard_union_eq _ (hf1.union hf2 |>.union hf3) hf4,
    Set.ncard_union_eq _ (hf1.union hf2) hf3, Set.ncard_union_eq _ hf1 hf2,
    ncard_mem_list (hnd _), ncard_mem_list (hnd _), ncard_mem_list (hnd _)]
  all_goals
    rw [Set.disjoint_left]
    intro p hp hq
    simp only [Set.mem_union, Set.mem_ofPred_eq, hme] at hp hq
    simp [hq] at hp

/-! ## Every run -/

/-- The contract of the callers, and no page is brought back from the standby list. -/
def PfnSystem.ContractNoRevival (s : PfnSystem) (a : PfnAction) : Prop :=
  s.Contract a ∧ ∀ p, a = .addReference p → (s.db.frame p).type ≠ .transition

/-- **Free page accounting.** In every run from `MiInitPMM` in which `MmPageAddReference` is never
    called on a standby page, `MmTotalFreePages` is at all times the number of frames on the zero,
    free and standby lists, with those `MmZeroOutFirstPFN` holds, and it never wraps. -/
theorem freePages_accounted (frame : Pfn → Pfdbe) (rs : List LoaderMemoryRegion)
    (h : MemoryMapOk rs) (db : Pfdb) (hinit : miInitPMM frame rs = some db) (s : PfnSystem)
    (hrun : Reaches PfnSystem.step PfnSystem.ContractNoRevival (initSystem db rs) s) :
    s.Accounted ∧ s.Steady := by
  have hc : ∃ L role, Counted s L role := by
    refine hrun.invariant (I := fun s => ∃ L role, Counted s L role) ?_ ?_
    · obtain ⟨db', L, role, hdb, hrf, hfr, hb, htl⟩ := miInitPMM_refines frame h
      rw [hinit] at hdb
      cases hdb
      refine ⟨L, role, hrf, fun p hp => (hb p hp).1, ?_⟩
      have hst : freeFrames role = {p | p ∈ freePfns rs} := Set.ext hfr
      rw [hst, ncard_mem_list h.nodup_freePfns]
      exact htl
    · rintro s a s' ⟨L, role, hcount⟩ ⟨hC, hno⟩ hs
      exact hcount.step hC hno hs
  obtain ⟨L, role, hcount⟩ := hc
  exact ⟨hcount.accounted, hcount.steady⟩

/-- A test that implies `ContractNoRevival`. -/
def PfnSystem.noRevivalTest (s : PfnSystem) (a : PfnAction) : Bool :=
  s.contractTest a && match a with
    | .addReference p => (s.db.frame p).type ≠ .transition
    | _ => true

theorem PfnSystem.noRevival_of_test (s : PfnSystem) (a : PfnAction)
    (h : s.noRevivalTest a = true) : s.ContractNoRevival a := by
  simp only [noRevivalTest, Bool.and_eq_true] at h
  refine ⟨s.contract_of_test a h.1, ?_⟩
  rintro p rfl
  simpa using h.2

/-- A page goes to the modified list, comes back from it, and ends on the standby list. -/
theorem freePages_accounted_sample : ∃ s, sampleRun PfnSystem.noRevivalTest
    [.allocate, .setPrototypePte 1 sampleEntry, .setModifiedPfn 1, .free 1, .addReference 1,
      .setCacheDetails 1 0 0, .free 1] = some s ∧ s.Accounted ∧ s.Steady := by
  have hsm : (sampleRun PfnSystem.noRevivalTest
    [.allocate, .setPrototypePte 1 sampleEntry, .setModifiedPfn 1, .free 1, .addReference 1,
      .setCacheDetails 1 0 0, .free 1]).isSome = true := by decide +kernel
  obtain ⟨s, hs⟩ := isSome_iff_exists.1 hsm
  obtain ⟨db, hin, hrn⟩ := bind_eq_some_iff.1 hs
  exact ⟨s, hs, freePages_accounted _ _ sampleMap_ok db hin s
    (Reaches.of_runChecked PfnSystem.noRevival_of_test hrn)⟩

/-! ## A page brought back from the standby list stays counted -/

/-- Nothing but the first half of `MmZeroOutFirstPFN` takes a frame to zero it. -/
theorem PfnSystem.step_zeroing (ha : a ≠ .zeroBegin) (hs : s.step a = some s')
    (h : ∀ p, (s.hold p).zeroing = false) (p : Pfn) : (s'.hold p).zeroing = false := by
  have hu : ∀ db q (f : Hold → Hold), (∀ x, (f x).zeroing = x.zeroing ∨ (f x).zeroing = false) →
      ((s.update db q f).hold p).zeroing = false := by
    intro db q f hf
    simp only [PfnSystem.update, update_apply]
    split
    · exact (hf _).elim (fun he => he.trans (h q)) id
    · exact h p
  cases a with
  | allocate | mpwBegin =>
    simp only [step] at hs
    split at hs
    · simp at hs
    · rw [← some.inj hs]
      exact h p
    · rw [← some.inj hs]
      exact hu _ _ _ fun _ => .inl rfl
  | free q | addReference q =>
    obtain ⟨db, -, rfl⟩ := map_eq_some_iff.1 hs
    exact hu _ _ _ fun _ => .inl rfl
  | setPrototypePte q _ | setCacheDetails q _ _ | setModifiedPfn q | setModifiedPage q =>
    obtain ⟨db, -, rfl⟩ := map_eq_some_iff.1 hs
    exact h p
  | zeroBegin => exact absurd rfl ha
  | zeroEnd q =>
    rw [← some.inj hs]
    exact hu _ _ _ fun _ => .inr rfl
  | mpwEnd q _ =>
    rw [← some.inj hs]
    exact hu _ _ _ fun _ => .inl rfl

/-- A test for the contract in a run without `MmZeroOutFirstPFN`. -/
def PfnSystem.noZeroTest (s : PfnSystem) : PfnAction → Bool
  | .zeroBegin => false
  | a => s.contractTest a

theorem PfnSystem.noZero_of_test (s : PfnSystem) (a : PfnAction) (h : s.noZeroTest a = true) :
    s.Contract a ∧ a ≠ .zeroBegin := by
  cases a with
  | zeroBegin => simp [noZeroTest] at h
  | _ => exact ⟨s.contract_of_test _ h, by simp⟩

theorem sample_lists (hs : sampleRun PfnSystem.noZeroTest sampleActions = some s)
    (h : s.db.ListsOk L) : L .zero = [2, 4] ∧ L .free = [] ∧ L .standby = [] := by
  have hc : (sampleRun PfnSystem.noZeroTest sampleActions).map (fun s =>
      (s.db.ends .zero, s.db.ends .free, s.db.ends .standby,
        ((s.db.frame 2).prevFrame, (s.db.frame 2).nextFrame),
        ((s.db.frame 4).prevFrame, (s.db.frame 4).nextFrame)))
      = some (⟨2, 4⟩, ⟨pfnInvalid, pfnInvalid⟩, ⟨pfnInvalid, pfnInvalid⟩, (pfnInvalid, 4),
        (2, pfnInvalid)) := by decide +kernel
  rw [hs, map_some, some.injEq] at hc
  simp only [Prod.mk.injEq] at hc
  obtain ⟨hz, hfr, hst, ⟨hp2, hn2⟩, hp4, hn4⟩ := hc
  refine ⟨(h.isList .zero).unique ⟨?_, ?_, by decide, by decide, hp2, hn2, hp4, hn4, trivial⟩,
    (h.isList .free).first_eq_nil_iff.1 ?_, (h.isList .standby).first_eq_nil_iff.1 ?_⟩
  · rw [hz]; rfl
  · rw [hz]; rfl
  · rw [hfr]
  · rw [hst]

/-- On a machine with three free pages, a page that is freed to the standby list and referenced again
    leaves the counter at three with two pages left. -/
theorem freePages_not_accounted : ∃ db s, MemoryMapOk sampleMap ∧
    miInitPMM (fun _ => .zero) sampleMap = some db ∧
    Reaches PfnSystem.step PfnSystem.Contract (initSystem db sampleMap) s ∧ ¬ s.Accounted := by
  have htl : (sampleRun PfnSystem.noZeroTest sampleActions).map (fun s => s.db.totalFreePages)
      = some 3 := by decide +kernel
  obtain ⟨s, hs, hh⟩ := map_eq_some_iff.1 htl
  obtain ⟨db, hin, hrn⟩ := bind_eq_some_iff.1 hs
  have hc := Reaches.of_runChecked PfnSystem.noZero_of_test hrn
  have hzr : ∀ p, (s.hold p).zeroing = false := by
    refine hc.invariant (I := fun s => ∀ p, (s.hold p).zeroing = false) ?_ ?_
    · intro p
      simp only [initSystem]
      split <;> rfl
    · exact fun s a s' h hC hs => PfnSystem.step_zeroing hC.2 hs h
  refine ⟨db, s, sampleMap_ok, hin, hc.mono fun _ _ hC => hC.1, ?_⟩
  rintro ⟨L, hok, hcount⟩
  obtain ⟨hz, hf, hst⟩ := sample_lists hs hok
  simp [hh, hz, hf, hst, hzr] at hcount

end Boron.Mm
