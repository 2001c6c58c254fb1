import Boron.Mm.PfnInit

/-! # The page cache (`mm/cache.c`, `io/filemap.c`)

The page cache of a file is a sparse array of page frame numbers (its CCB). The link from an entry to
its frame is weak: the frame's prototype PTE is to point back at the entry, so that a page nobody
references any more goes to the standby or modified list instead of the free list, and the entry is
cleared when the frame is reclaimed.

`IopReadPageFromFile` fills an entry without recording that back pointer (it passes `NULL` for it, and
nothing else calls `MmSetPrototypePtePfn`), so the entry keeps naming its frame when the last
reference is dropped and the frame goes to the free list. Short of that the cache and the database
agree (`pageCache_agrees`).

A fill is a thread of its own: every locked step of it may be interleaved with anything else. The
sparse array is a map from indices to entries; the pages of its indirect levels are plain allocations,
and running out of memory for them is an outcome of the assignment. -/

namespace Boron.Mm

open Function List Option

/-! ## The system -/

/-- An entry of the CCB of some file. -/
structure Slot where
  file : Nat
  index : Nat
  deriving DecidableEq, Repr

/-- Where a run of `IopReadPageFromFile` is. -/
inductive FillPc
  /-- the entry was set to `MM_SLA_NO_DATA` -/
  | cleared
  /-- `MmAllocatePhysicalPage` returned the page -/
  | allocated (p : Pfn)
  /-- the MDL holds a reference of its own and the read is on its way -/
  | reading (p : Pfn)
  /-- the read succeeded and the MDL was freed -/
  | read (p : Pfn)
  /-- the read or the assignment of the entry failed, the page is to be freed -/
  | failed (p : Pfn)
  /-- the entry names the page -/
  | assigned (p : Pfn)
  deriving DecidableEq, Repr

/-- A run of `IopReadPageFromFile` for an entry. -/
structure Fill where
  slot : Slot
  pc : FillPc
  deriving DecidableEq, Repr

/-- The frame database, the CCBs of all files and the fills in progress. -/
structure CacheSystem where
  sys : PfnSystem
  entry : Slot → Option Pfn
  fills : List Fill

/-- The steps: locked steps of the database by any thread, lookups, and the steps of the fills. -/
inductive CacheAction
  | locked (a : PfnAction)
  | allocate
  | lookup (slot : Slot)
  | fillBegin (slot : Slot) (success : Bool)
  | fillAllocate (i : Nat)
  | fillMdl (i : Nat)
  | fillRead (i : Nat) (success : Bool)
  | fillAssign (i : Nat) (success : Bool)
  | fillAbort (i : Nat)
  | fillDetails (i : Nat)

/-- `MmAllocatePhysicalPage`: reclaiming a standby page stores `MM_SLA_NO_DATA` at the address its
    prototype PTE points at. `addr` is the address of each entry. -/
def CacheSystem.mmAllocatePhysicalPage (addr : Slot → Nat) (s : CacheSystem) :
    Option (CacheSystem × Option Pfn) :=
  match miAllocatePhysicalPageWithPfdbLocked s.sys.db with
  | none => none
  | some (db, none, _) => some ({ s with sys := { s.sys with db := db } }, none)
  | some (db, some p, cleared, _) =>
    some ({ s with
      sys := s.sys.update db p fun h => { h with refs := h.refs + 1 }
      entry := fun slot => if cleared = some (addr slot) then none else s.entry slot }, some p)

/-- A locked step of the database, with the fill `i` moved to `fills`. -/
def CacheSystem.lockedStep (s : CacheSystem) (a : PfnAction) (fills : List Fill) :
    Option CacheSystem :=
  (s.sys.step a).map fun sys => { s with sys := sys, fills := fills }

/-- One step. -/
def CacheSystem.step (addr : Slot → Nat) (s : CacheSystem) : CacheAction → Option CacheSystem
  | .locked a => s.lockedStep a s.fills
  | .allocate => (s.mmAllocatePhysicalPage addr).map Prod.fst
  -- `MmGetEntryCcb`: the entry is read and the page referenced under the PFN lock
  | .lookup slot =>
    match s.entry slot with
    | none => some s
    | some p => s.lockedStep (.addReference p) s.fills
  -- `MmSetEntryCcb(.., PFN_INVALID, NULL)`
  | .fillBegin slot success =>
    if success then
      some { s with entry := update s.entry slot none
                    fills := s.fills ++ [⟨slot, .cleared⟩] }
    else some s
  | .fillAllocate i =>
    match s.fills[i]? with
    | some ⟨slot, .cleared⟩ =>
      match s.mmAllocatePhysicalPage addr with
      | none => none
      | some (s', none) => some { s' with fills := s.fills.eraseIdx i }
      | some (s', some p) => some { s' with fills := s.fills.set i ⟨slot, .allocated p⟩ }
    | _ => none
  -- `MmInitializeSinglePageMdl`
  | .fillMdl i =>
    match s.fills[i]? with
    | some ⟨slot, .allocated p⟩ =>
      s.lockedStep (.addReference p) (s.fills.set i ⟨slot, .reading p⟩)
    | _ => none
  -- `IoPerformPagingRead` returns, `MmFreeMdl`
  | .fillRead i success =>
    match s.fills[i]? with
    | some ⟨slot, .reading p⟩ =>
      s.lockedStep (.free p) (s.fills.set i ⟨slot, if success then .read p else .failed p⟩)
    | _ => none
  -- `MmSetEntryCcb(.., Pfn, NULL)`
  | .fillAssign i success =>
    match s.fills[i]? with
    | some ⟨slot, .read p⟩ =>
      if success then
        some { s with entry := update s.entry slot (some p)
                      fills := s.fills.set i ⟨slot, .assigned p⟩ }
      else some { s with fills := s.fills.set i ⟨slot, .failed p⟩ }
    | _ => none
  | .fillAbort i =>
    match s.fills[i]? with
    | some ⟨_, .failed p⟩ => s.lockedStep (.free p) (s.fills.eraseIdx i)
    | _ => none
  -- `MmSetCacheDetailsPfn`; the page and its reference are the caller's from now on
  | .fillDetails i =>
    match s.fills[i]? with
    | some ⟨slot, .assigned p⟩ =>
      s.lockedStep (.setCacheDetails p slot.file (slot.index * pageSize)) (s.fills.eraseIdx i)
    | _ => none

/-- The references that a fill owns. -/
def FillPc.refs (q : Pfn) : FillPc → Nat
  | .cleared => 0
  | .reading p => if q = p then 2 else 0
  | .allocated p | .read p | .failed p | .assigned p => if q = p then 1 else 0

/-- The references to a frame that some fills own. -/
def fillRefs (fills : List Fill) (q : Pfn) : Nat := (fills.map fun f => f.pc.refs q).sum

/-- What the database expects of the threads other than the fills. A reference that a fill owns is not
    theirs to drop, and no code of the kernel calls `MmSetPrototypePtePfn`. -/
def CacheSystem.Contract (s : CacheSystem) : CacheAction → Prop
  | .locked a => s.sys.Contract a ∧ match a with
    | .allocate => False
    | .setPrototypePte _ _ => False
    | .free p => fillRefs s.fills p < (s.sys.hold p).refs
    | _ => True
  | _ => True

/-- Some entry names the frame. -/
def CacheSystem.Named (s : CacheSystem) (p : Pfn) : Prop := ∃ slot, s.entry slot = some p

/-- The frame whose reference a step drops. -/
def CacheSystem.dropped (s : CacheSystem) : CacheAction → Option Pfn
  | .locked (.free p) => some p
  | .fillRead i _ =>
    match s.fills[i]? with
    | some ⟨_, .reading p⟩ => some p
    | _ => none
  | .fillAbort i =>
    match s.fills[i]? with
    | some ⟨_, .failed p⟩ => some p
    | _ => none
  | _ => none

/-- The step does not drop the last reference to a frame that an entry names. -/
def CacheSystem.KeepsNamed (s : CacheSystem) (a : CacheAction) : Prop :=
  ∀ p, s.dropped a = some p → s.Named p → (s.sys.db.frame p).refCount ≠ 1

/-- The page cache and the frame database agree: an entry names a frame that is in use, or one on the
    standby or modified list whose prototype PTE points back at exactly that entry. A frame that
    `MmAllocatePhysicalPage` hands out is named by no entry any more. -/
structure CacheSystem.Agrees (addr : Slot → Nat) (s : CacheSystem) : Prop where
  named : ∀ slot p, s.entry slot = some p → 0 < (s.sys.db.frame p).refCount ∨
    ((s.sys.db.OnList .standby p ∨ s.sys.db.OnList .modified p) ∧
      pfdbePrototypePte (s.sys.db.frame p) = addr slot)
  notFree : ∀ p, s.Named p → ¬ s.sys.db.OnList .free p ∧ ¬ s.sys.db.OnList .zero p
  fresh : ∀ s' p, s.mmAllocatePhysicalPage addr = some (s', some p) → ¬ s'.Named p

/-! ## The invariant -/

/-- As long as no named frame loses its last reference, entries name frames in use. No frame has a
    prototype PTE, so the standby and modified lists are empty and the writer has nothing to do. -/
structure CacheSystem.Inv (s : CacheSystem) (L : PfnList → List Pfn) (role : Pfn → Role) :
    Prop where
  refines : Refines s.sys L role
  noProto : ∀ p, role p ≠ .outside → (s.sys.db.frame p).prototypePte = 0
  fillRefs_le : ∀ p, fillRefs s.fills p ≤ (s.sys.hold p).refs
  named : ∀ p, s.Named p → ∃ refs writing, role p = .inUse refs writing

variable {s s' : CacheSystem} {sys : PfnSystem} {L : PfnList → List Pfn} {role : Pfn → Role}
  {a : PfnAction} {p q : Pfn} {r r' : Role} {e e' : Pfdbe} {t : Tally} {addr : Slot → Nat} {i : Nat}

/-! ### References of the fills -/

variable {fills : List Fill} {f : Fill}

theorem fillRefs_eraseIdx (h : fills[i]? = some f) (q : Pfn) :
    fillRefs (fills.eraseIdx i) q + f.pc.refs q = fillRefs fills q := by
  induction fills generalizing i with
  | nil => simp at h
  | cons b l ih =>
    cases i with
    | zero =>
      obtain rfl : b = f := by simpa using h
      simp only [fillRefs, eraseIdx_cons_zero, map_cons, sum_cons]
      omega
    | succ i =>
      have := ih (by simpa using h)
      simp only [fillRefs, eraseIdx_cons_succ, map_cons, sum_cons] at this ⊢
      omega

theorem fillRefs_set (g : Fill) (h : fills[i]? = some f) (q : Pfn) :
    fillRefs (fills.set i g) q + f.pc.refs q = fillRefs fills q + g.pc.refs q := by
  have hg : (fills.set i g)[i]? = some g := getElem?_set_self (List.getElem?_eq_some_iff.1 h).1
  have hers := fillRefs_eraseIdx h q
  have hset := fillRefs_eraseIdx hg q
  rw [eraseIdx_set_eq] at hset
  omega

/-- Only `MmFreePhysicalPage` takes a reference away. -/
theorem PfnSystem.refs_le_of_step {s s' : PfnSystem} (h : s.step a = some s')
    (ha : ∀ q, a ≠ .free q) (q : Pfn) : (s.hold q).refs ≤ (s'.hold q).refs := by
  have hu : ∀ db p (f : Hold → Hold), (∀ x, x.refs ≤ (f x).refs) →
      (s.hold q).refs ≤ ((s.update db p f).hold q).refs := by
    intro db p f hf
    simp only [PfnSystem.update, update_apply]
    split
    · next he => subst he; exact hf _
    · exact Nat.le_refl _
  cases a with
  | allocate | zeroBegin | mpwBegin =>
    simp only [step] at h
    split at h
    · simp at h
    · cases h
      exact Nat.le_refl _
    · cases h
      exact hu _ _ _ fun _ => by simp
  | free p => exact absurd rfl (ha p)
  | addReference p =>
    obtain ⟨db, -, rfl⟩ := map_eq_some_iff.1 h
    exact hu _ _ _ fun _ => by simp
  | setPrototypePte p _ | setCacheDetails p _ _ | setModifiedPfn p | setModifiedPage p =>
    obtain ⟨db, -, rfl⟩ := map_eq_some_iff.1 h
    exact Nat.le_refl _
  | zeroEnd p | mpwEnd p _ =>
    rw [← some.inj h]
    exact hu _ _ _ fun _ => Nat.le_refl _

/-- `MmFreePhysicalPage` takes one reference to its page, and none to another. -/
theorem PfnSystem.refs_of_free {s s' : PfnSystem} (h : s.step (.free p) = some s') (q : Pfn) :
    (s'.hold q).refs = (s.hold q).refs - if q = p then 1 else 0 := by
  obtain ⟨db, -, rfl⟩ := map_eq_some_iff.1 h
  simp only [PfnSystem.update, update_apply]
  split
  · next he => subst he; rfl
  · rfl

theorem PfnSystem.refs_of_addReference {s s' : PfnSystem} (h : s.step (.addReference p) = some s')
    (q : Pfn) : (s'.hold q).refs = (s.hold q).refs + if q = p then 1 else 0 := by
  obtain ⟨db, -, rfl⟩ := map_eq_some_iff.1 h
  simp only [PfnSystem.update, update_apply]
  split
  · next he => subst he; rfl
  · rfl

/-! ### Frames -/

theorem FrameStep.prototypePte (h : FrameStep p a r e r' e' t)
    (ha : ∀ ptr, a ≠ .setPrototypePte p ptr) (he : e.prototypePte = 0) : e'.prototypePte = 0 := by
  cases h with
  | setPrototypePte ptr r e => exact absurd rfl (ha ptr)
  | allocate l e hl => rfl
  | _ => exact he

/-- A frame in use without a prototype PTE leaves use only through its last reference. -/
theorem FrameStep.stays_inUse {refs : Nat} {writing : Bool}
    (h : FrameStep p a (.inUse refs writing) e r' e' t) (hok : FrameOk (.inUse refs writing) e)
    (hp : e.prototypePte = 0) (hls : a = .free p → e.refCount ≠ 1) :
    ∃ refs' writing', r' = .inUse refs' writing' := by
  cases h with
  | releaseFree e h => exact absurd hok.2.1 (hls rfl)
  | releaseStandby e h hm => exact absurd hp h
  | releaseModified e h hm => exact absurd hp h
  | mpwStandby e => exact absurd hp (hok.2.2.2 rfl).2.1
  | mpwReinsert e => exact absurd hp (hok.2.2.2 rfl).2.1
  | _ => exact ⟨_, _, rfl⟩

/-- A frame that moves along its life cycle keeps the frame part of the invariant. -/
theorem CacheSystem.Inv.of_moved (h : s.Inv L role) (hm : Moved s.sys sys role a p)
    (hse : ∀ ptr, a ≠ .setPrototypePte p ptr)
    (hls : a = .free p → s.Named p → (s.sys.db.frame p).refCount ≠ 1) :
    ∃ L' role', Refines sys L' role' ∧ (∀ q, role' q ≠ .outside → (sys.db.frame q).prototypePte = 0) ∧
      ∀ q, s.Named q → ∃ refs writing, role' q = .inUse refs writing := by
  obtain ⟨r', t, L', hst, hot, -, hrf⟩ := hm
  refine ⟨L', _, hrf, fun q hq => ?_, fun q hq => ?_⟩
  · by_cases hp : q = p
    · subst hp
      refine hst.prototypePte hse (h.noProto q fun hr => hq ?_)
      rw [hr] at hst
      rw [update_self, hst.outside]
    · rw [update_of_ne hp] at hq
      exact (Pfdbe.fields_of_unlinked (hot q hp)).2.2.1.trans (h.noProto q hq)
  · obtain ⟨refs, writing, hr⟩ := h.named q hq
    by_cases hp : q = p
    · subst hp
      have hok := h.refines.frameOk q
      rw [hr] at hok hst
      rw [update_self]
      exact hst.stays_inUse (frameOk_unlinked.2 hok) (h.noProto q (by simp [hr])) fun ha => hls ha hq
    · rw [update_of_ne hp]
      exact ⟨refs, writing, hr⟩

theorem CacheSystem.Inv.lockedStep (h : s.Inv L role) (hC : s.sys.Contract a)
    (hst : ∀ q ptr, a ≠ .setPrototypePte q ptr)
    (hls : ∀ p, a = .free p → s.Named p → (s.sys.db.frame p).refCount ≠ 1)
    (hs : s.lockedStep a fills = some s')
    (hrf : ∀ sys, s.sys.step a = some sys → ∀ q, fillRefs fills q ≤ (sys.hold q).refs) :
    ∃ L' role', s'.Inv L' role' := by
  obtain ⟨sys, hy, rfl⟩ := map_eq_some_iff.1 hs
  rcases PfnSystem.step_moved h.refines hC hy with ⟨rfl, -⟩ | ⟨p, hm⟩
  · exact ⟨L, role, h.refines, h.noProto, hrf _ hy, h.named⟩
  · obtain ⟨L', role', hre, hp, hnm⟩ := h.of_moved hm (hst p) (hls p)
    exact ⟨L', role', hre, hp, hrf _ hy, hnm⟩

theorem CacheSystem.Inv.allocate {res : Option Pfn} (h : s.Inv L role)
    (hs : s.mmAllocatePhysicalPage addr = some (s', res)) :
    s'.fills = s.fills ∧ (∃ L' role', s'.Inv L' role') ∧ match res with
      | none => True
      | some p => ¬ s'.Named p ∧
        ∀ q, (s'.sys.hold q).refs = (s.sys.hold q).refs + if q = p then 1 else 0 := by
  unfold mmAllocatePhysicalPage at hs
  split at hs
  · simp at hs
  · next db rest ha =>
      simp only [some.injEq, Prod.mk.injEq] at hs
      obtain ⟨rfl, rfl⟩ := hs
      rcases miAllocatePhysicalPage_moved h.refines ha with ⟨-, rfl, -⟩ | ⟨p, l, hp, -⟩
      · exact ⟨rfl, ⟨L, role, h.refines, h.noProto, h.fillRefs_le, h.named⟩, trivial⟩
      · simp at hp
  · next db p cleared z ha =>
      simp only [some.injEq, Prod.mk.injEq] at hs
      obtain ⟨rfl, rfl⟩ := hs
      rcases miAllocatePhysicalPage_moved h.refines ha with ⟨hp, -⟩ | ⟨p', l, hp, -, hr, -, hm⟩
      · simp at hp
      obtain rfl : p = p' := some.inj hp
      obtain ⟨L', role', hre, hpr, hnm⟩ := h.of_moved hm (by simp) (by simp)
      have hrf : ∀ q, ((s.sys.update db p fun h => { h with refs := h.refs + 1 }).hold q).refs
          = (s.sys.hold q).refs + if q = p then 1 else 0 := by
        intro q
        simp only [PfnSystem.update, update_apply]
        split
        · next he => subst he; rfl
        · rfl
      have hb : ∀ q, Named { s with
          sys := s.sys.update db p fun h => { h with refs := h.refs + 1 }
          entry := fun slot => if cleared = some (addr slot) then none else s.entry slot } q →
          s.Named q := by
        rintro q ⟨slot, hsl⟩
        refine ⟨slot, ?_⟩
        simp only at hsl
        split at hsl
        · simp at hsl
        · exact hsl
      refine ⟨rfl, ⟨L', role', hre, hpr, fun q => ?_, fun q hq => hnm q (hb q hq)⟩, ?_, hrf⟩
      · refine Nat.le_trans (h.fillRefs_le q) ?_
        rw [hrf]
        exact Nat.le_add_right _ _
      · intro hp
        obtain ⟨refs, writing, hr'⟩ := h.named p (hb p hp)
        rw [hr] at hr'
        simp at hr'

/-! ## Steps and runs -/

/-- A fill that holds its page has it in use. -/
theorem CacheSystem.Inv.fill_held (h : s.Inv L role) (hf : s.fills[i]? = some f)
    (hp : 0 < f.pc.refs p) : 0 < (s.sys.hold p).refs := by
  have he := fillRefs_eraseIdx hf p
  have hle := h.fillRefs_le p
  omega

theorem CacheSystem.Inv.setFills (h : s.Inv L role) (hrf : ∀ q, fillRefs fills q ≤ (s.sys.hold q).refs) :
    CacheSystem.Inv { s with fills := fills } L role :=
  ⟨h.refines, h.noProto, hrf, h.named⟩

theorem CacheSystem.Inv.step {b : CacheAction} (h : s.Inv L role) (hC : s.Contract b)
    (hkp : s.KeepsNamed b) (hs : s.step addr b = some s') : ∃ L' role', s'.Inv L' role' := by
  have hle := h.fillRefs_le
  cases b with
  | locked a =>
    refine h.lockedStep hC.1 ?_ ?_ hs ?_
    · rintro q ptr rfl
      exact hC.2
    · rintro p rfl
      exact hkp p rfl
    · intro sys hy q
      by_cases ha : ∃ p, a = .free p
      · obtain ⟨p, rfl⟩ := ha
        have hlt : fillRefs s.fills p < (s.sys.hold p).refs := hC.2
        rw [PfnSystem.refs_of_free hy]
        split
        · next he => subst he; omega
        · exact hle q
      · exact Nat.le_trans (hle q) (PfnSystem.refs_le_of_step hy (fun p hp => ha ⟨p, hp⟩) q)
  | allocate =>
    obtain ⟨⟨s1, res⟩, hal, rfl⟩ := map_eq_some_iff.1 hs
    exact (h.allocate hal).2.1
  | lookup slot =>
    simp only [CacheSystem.step] at hs
    split at hs
    · rw [← some.inj hs]
      exact ⟨L, role, h⟩
    · next p hp =>
        obtain ⟨refs, wr, hr⟩ := h.named p ⟨slot, hp⟩
        refine h.lockedStep ?_ (by simp) (by simp) hs fun sys hy q => ?_
        · exact (h.refines.held_of_inUse hr).imp_right .inl
        · exact Nat.le_trans (hle q) (PfnSystem.refs_le_of_step hy (by simp) q)
  | fillBegin slot suc =>
    simp only [CacheSystem.step] at hs
    split at hs
    · rw [← some.inj hs]
      refine ⟨L, role, h.refines, h.noProto, fun q => ?_, ?_⟩
      · simpa [fillRefs, FillPc.refs] using hle q
      · rintro q ⟨slot', hsl⟩
        simp only [update_apply] at hsl
        split at hsl
        · simp at hsl
        · exact h.named q ⟨slot', hsl⟩
    · rw [← some.inj hs]
      exact ⟨L, role, h⟩
  | fillAllocate i =>
    simp only [CacheSystem.step] at hs
    split at hs
    · next slot hf =>
        split at hs
        · simp at hs
        · next s1 hal =>
            obtain ⟨hfl, ⟨L', role', h'⟩, -⟩ := h.allocate hal
            rw [← some.inj hs]
            refine ⟨L', role', h'.setFills fun q => ?_⟩
            have hers := fillRefs_eraseIdx hf q
            have hle' := h'.fillRefs_le q
            rw [hfl] at hle'
            omega
        · next s1 p hal =>
            obtain ⟨-, ⟨L', role', h'⟩, -, hrf⟩ := h.allocate hal
            rw [← some.inj hs]
            refine ⟨L', role', h'.setFills fun q => ?_⟩
            have hst := fillRefs_set ⟨slot, .allocated p⟩ hf q
            have hq := hle q
            simp only [FillPc.refs] at hst
            rw [hrf]
            omega
    · simp at hs
  | fillMdl i =>
    simp only [CacheSystem.step] at hs
    split at hs
    · next slot p hf =>
        have hh := h.fill_held hf (p := p) (by simp [FillPc.refs])
        refine h.lockedStep (a := .addReference p) (.inl hh) (by simp) (by simp) hs fun sys hy q => ?_
        have hst := fillRefs_set ⟨slot, .reading p⟩ hf q
        have hq := hle q
        rw [PfnSystem.refs_of_addReference hy]
        simp only [FillPc.refs] at hst
        split_ifs at hst ⊢ <;> omega
    · simp at hs
  | fillRead i suc =>
    simp only [CacheSystem.step] at hs
    split at hs
    · next slot p hf =>
        have hh := h.fill_held hf (p := p) (by simp [FillPc.refs])
        refine h.lockedStep (a := .free p) hh (by simp) ?_ hs fun sys hy q => ?_
        · rintro p' hp'
          obtain rfl : p = p' := by simpa using hp'
          exact hkp p (by simp [dropped, hf])
        · have hst := fillRefs_set ⟨slot, if suc then .read p else .failed p⟩ hf q
          have hq := hle q
          have hc : FillPc.refs q (if suc = true then .read p else .failed p)
              = if q = p then 1 else 0 := by cases suc <;> rfl
          rw [PfnSystem.refs_of_free hy]
          simp only [hc] at hst
          simp only [FillPc.refs] at hst
          split_ifs at hst ⊢ <;> omega
    · simp at hs
  | fillAssign i suc =>
    simp only [CacheSystem.step] at hs
    split at hs
    · next slot p hf =>
        split at hs
        · rw [← some.inj hs]
          obtain ⟨refs, wr, hr⟩ :=
            h.refines.inUse_of_refs (h.fill_held hf (p := p) (by simp [FillPc.refs]))
          refine ⟨L, role, h.refines, h.noProto, fun q => ?_, ?_⟩
          · have hst := fillRefs_set ⟨slot, .assigned p⟩ hf q
            have hq := hle q
            simp only [FillPc.refs] at hst
            show fillRefs (s.fills.set i ⟨slot, .assigned p⟩) q ≤ (s.sys.hold q).refs
            omega
          · rintro q ⟨slot', hsl⟩
            simp only [update_apply] at hsl
            split at hsl
            · obtain rfl : p = q := some.inj hsl
              exact ⟨_, _, hr⟩
            · exact h.named q ⟨slot', hsl⟩
        · rw [← some.inj hs]
          refine ⟨L, role, h.setFills fun q => ?_⟩
          have hst := fillRefs_set ⟨slot, .failed p⟩ hf q
          have hq := hle q
          simp only [FillPc.refs] at hst
          omega
    · simp at hs
  | fillAbort i =>
    simp only [CacheSystem.step] at hs
    split at hs
    · next slot p hf =>
        have hh := h.fill_held hf (p := p) (by simp [FillPc.refs])
        refine h.lockedStep (a := .free p) hh (by simp) ?_ hs fun sys hy q => ?_
        · rintro p' hp'
          obtain rfl : p = p' := by simpa using hp'
          exact hkp p (by simp [dropped, hf])
        · have hers := fillRefs_eraseIdx hf q
          have hq := hle q
          rw [PfnSystem.refs_of_free hy]
          simp only [FillPc.refs] at hers
          split_ifs at hers ⊢ <;> omega
    · simp at hs
  | fillDetails i =>
    simp only [CacheSystem.step] at hs
    split at hs
    · next slot p hf =>
        refine h.lockedStep (a := .setCacheDetails p slot.file (slot.index * pageSize)) trivial
          (by simp) (by simp) hs fun sys hy q => ?_
        have hers := fillRefs_eraseIdx hf q
        have hmn := PfnSystem.refs_le_of_step hy (by simp) q
        have hq := hle q
        omega
    · simp at hs

/-- What the invariant says about the entries. -/
theorem CacheSystem.Inv.agrees (h : s.Inv L role) : s.Agrees addr := by
  refine ⟨fun slot p hp => .inl ?_, fun p hp => ?_, fun s' p ha => ?_⟩
  · obtain ⟨refs, wr, hr⟩ := h.named p ⟨slot, hp⟩
    have hok := h.refines.frameOk p
    rw [hr] at hok
    rw [hok.2.1]
    exact_mod_cast hok.1
  · obtain ⟨refs, wr, hr⟩ := h.named p hp
    constructor
    · intro hl
      simp [h.refines.listed_of_onList hl] at hr
    · intro hl
      simp [h.refines.listed_of_onList hl] at hr
  · exact (h.allocate ha).2.2.1

/-- The system after `MiInitPMM`: every cache is empty. -/
def initCache (db : Pfdb) (rs : List LoaderMemoryRegion) : CacheSystem :=
  ⟨initSystem db rs, fun _ => none, []⟩

/-- **The page cache and the frame database agree.** In every interleaving of fills, lookups, frees,
    allocations and write-outs, on any number of files, in which nobody drops the last reference to
    a frame that an entry names, every entry names a frame in use, and no frame that is on the free
    or zero list or newly allocated is named. -/
theorem pageCache_agrees (addr : Slot → Nat) (frame : Pfn → Pfdbe) (rs : List LoaderMemoryRegion)
    (h : MemoryMapOk rs) (db : Pfdb) (hinit : miInitPMM frame rs = some db) (s : CacheSystem)
    (hrun : Reaches (CacheSystem.step addr) (fun s a => s.Contract a ∧ s.KeepsNamed a)
      (initCache db rs) s) : s.Agrees addr := by
  have hin : ∃ L role, s.Inv L role := by
    refine hrun.invariant (I := fun s => ∃ L role, CacheSystem.Inv s L role) ?_ ?_
    · obtain ⟨db', L, role, hb, hrf, -, htr, -⟩ := miInitPMM_refines frame h
      rw [hinit] at hb
      cases hb
      refine ⟨L, role, hrf, fun p hp => (htr p hp).2, fun q => Nat.zero_le _, ?_⟩
      rintro p ⟨slot, hsl⟩
      simp [initCache] at hsl
    · rintro s a s' ⟨L, role, hin⟩ ⟨hC, hkp⟩ hs
      exact hin.step hC hkp hs
  obtain ⟨L, role, hin⟩ := hin
  exact hin.agrees

/-! ## Concrete runs -/

/-- A test that implies the contract, to be run on concrete states. -/
def CacheSystem.contractTest (s : CacheSystem) : CacheAction → Bool
  | .locked a => s.sys.contractTest a && match a with
    | .allocate => false
    | .setPrototypePte _ _ => false
    | .free p => decide (fillRefs s.fills p < (s.sys.hold p).refs)
    | _ => true
  | _ => true

theorem CacheSystem.contract_of_test (s : CacheSystem) (a : CacheAction)
    (h : s.contractTest a = true) : s.Contract a := by
  cases a with
  | locked a =>
    simp only [contractTest, Bool.and_eq_true] at h
    refine ⟨s.sys.contract_of_test a h.1, ?_⟩
    cases a with
    | allocate | setPrototypePte p ptr => simp at h
    | free p => simpa using h.2
    | _ => trivial
  | _ => trivial

/-- A test that implies the contract and `KeepsNamed`: no reference is dropped but of a page that has
    another one. -/
def CacheSystem.keepsNamedTest (s : CacheSystem) (a : CacheAction) : Bool :=
  s.contractTest a && match s.dropped a with
    | none => true
    | some p => (s.sys.db.frame p).refCount ≠ 1

theorem CacheSystem.keepsNamed_of_test (s : CacheSystem) (a : CacheAction)
    (h : s.keepsNamedTest a = true) : s.Contract a ∧ s.KeepsNamed a := by
  simp only [keepsNamedTest, Bool.and_eq_true] at h
  refine ⟨s.contract_of_test a h.1, fun p hp _ => ?_⟩
  simpa [hp] using h.2

/-- Run actions on the system that `MiInitPMM` leaves for `sampleMap`, with the entries of each file
    in a page of its own. -/
def sampleAddr (slot : Slot) : Nat := 0xFFFF800000000000 + slot.file * pageSize + slot.index * 8

def sampleCacheRun (ok : CacheSystem → CacheAction → Bool) (as : List CacheAction) :
    Option CacheSystem :=
  (miInitPMM (fun _ => .zero) sampleMap).bind fun db =>
    runChecked (CacheSystem.step sampleAddr) ok as (initCache db sampleMap)

/-- `IopReadPageFromFile` for the first page of a file, with nobody else running. -/
def sampleFill : List CacheAction :=
  [.fillBegin ⟨0, 0⟩ true, .fillAllocate 0, .fillMdl 0, .fillRead 0 true, .fillAssign 0 true,
    .fillDetails 0]

/-- The page is looked up a second time, and one of the two references is dropped. -/
theorem pageCache_agrees_sample : ∃ s, sampleCacheRun CacheSystem.keepsNamedTest
    (sampleFill ++ [.lookup ⟨0, 0⟩, .locked (.free 1)]) = some s ∧ s.Named 1 ∧ s.Agrees sampleAddr := by
  have hnm : (sampleCacheRun CacheSystem.keepsNamedTest
    (sampleFill ++ [CacheAction.lookup ⟨0, 0⟩, CacheAction.locked (.free 1)])).map (fun s => s.entry ⟨0, 0⟩)
      = some (some 1) := by decide +kernel
  obtain ⟨s, hs, hsl⟩ := map_eq_some_iff.1 hnm
  obtain ⟨db, hin, hrn⟩ := bind_eq_some_iff.1 hs
  exact ⟨s, hs, ⟨⟨0, 0⟩, hsl⟩, pageCache_agrees _ _ _ sampleMap_ok db hin s
    (Reaches.of_runChecked CacheSystem.keepsNamed_of_test hrn)⟩

/-- The page that was read is unmapped: its last reference is dropped, and the frame goes to the free
    list although the entry still names it. -/
theorem pageCache_not_agrees : ∃ db s, MemoryMapOk sampleMap ∧
    miInitPMM (fun _ => .zero) sampleMap = some db ∧
    Reaches (CacheSystem.step sampleAddr) CacheSystem.Contract (initCache db sampleMap) s ∧
    ¬ s.Agrees sampleAddr := by
  have hfs : (sampleCacheRun CacheSystem.contractTest
      (sampleFill ++ [CacheAction.locked (.free 1)])).map (fun s =>
        (s.entry ⟨0, 0⟩, s.sys.db.isOnly .free 1)) = some (some 1, true) := by decide +kernel
  obtain ⟨s, hs, hc⟩ := map_eq_some_iff.1 hfs
  obtain ⟨db, hin, hrn⟩ := bind_eq_some_iff.1 hs
  simp only [Prod.mk.injEq] at hc
  refine ⟨db, s, sampleMap_ok, hin, Reaches.of_runChecked CacheSystem.contract_of_test hrn,
    fun ha => ?_⟩
  exact (ha.notFree 1 ⟨⟨0, 0⟩, hc.1⟩).1 (Pfdb.onList_of_isOnly hc.2)

end Boron.Mm
