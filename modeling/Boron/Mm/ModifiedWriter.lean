import Boron.Mm.PfnInit

/-! # Dirty pages and the modified page writer

The modified page writer (`mm/mpw.c`) drops the PFN lock while it writes a page out, and other threads
may reference, modify and free the page meanwhile. What must not get lost is the contents of a cached
page that no successful write-out covers. The contents themselves are kept as ghost state beside the
database (`Dirt`): whether a page was modified after the start of its last successful write-out, and
whether it was modified after the start of the current one.

The code decides by `RefCount`, `Modified` and `IsInModifiedPageList`, and misses in two places: a
page re-dirtied during a successful write-out becomes a standby page if only the writer's reference is
left, and a page whose write-out failed while somebody holds it stays unmarked. Away from those two
the page is never lost (`dirtyPages_kept`). -/

namespace Boron.Mm

open Function Option

/-! ## Dirty pages as ghost state -/

/-- What the disk has not seen of a page. -/
structure Dirt where
  /-- the contents were modified after the start of the last successful write-out -/
  dirty : Bool := false
  /-- the contents were modified after the start of the current write-out -/
  since : Bool := false
  deriving DecidableEq, Repr

/-- The frame database with the state of its pages' contents. -/
structure DirtySystem where
  sys : PfnSystem
  dirt : Pfn → Dirt

/-- A locked step of the database, or a store to a page through a writable mapping. -/
inductive DirtyAction
  | locked (a : PfnAction)
  | store (p : Pfn)

/-- How a locked step changes the ghost state of the page `q`, given what was and is held of it. -/
def Dirt.after (a : PfnAction) (q : Pfn) (h h' : Hold) (d : Dirt) : Dirt :=
  match a with
  | .setModifiedPage p | .setModifiedPfn p => if q = p then ⟨true, true⟩ else d
  -- a page that is handed out has new contents
  | .allocate => if h.refs < h'.refs then {} else d
  | .mpwBegin => if h'.writing && !h.writing then { d with since := false } else d
  | .mpwEnd p true => if q = p then { d with dirty := d.since } else d
  | _ => d

/-- One step of the database or of a program that writes to a page. -/
def DirtySystem.step (s : DirtySystem) : DirtyAction → Option DirtySystem
  | .locked a => (s.sys.step a).map fun sys =>
    ⟨sys, fun q => (s.dirt q).after a q (s.sys.hold q) (sys.hold q)⟩
  | .store p => some { s with dirt := update s.dirt p ⟨true, true⟩ }

/-- The contract of the callers: a page is written to, marked and entered into the cache only by
    those who hold it, written to only once it is marked, and its cache details are not set again
    while it is marked. -/
def DirtySystem.Contract (s : DirtySystem) : DirtyAction → Prop
  | .store p => 0 < (s.sys.hold p).refs ∧ (s.sys.db.frame p).modified = true
  | .locked a => s.sys.Contract a ∧ match a with
    | .setPrototypePte p _ => 0 < (s.sys.hold p).refs
    | .setModifiedPfn p => 0 < (s.sys.hold p).refs
    | .setCacheDetails p _ _ => (s.sys.db.frame p).modified = false
    | _ => True

/-- A dirty page of the cache is held by somebody, on the modified list or in the writer's hands, and
    is not a standby page. -/
def DirtySystem.Kept (s : DirtySystem) : Prop :=
  ∀ p, (s.sys.db.frame p).prototypePte ≠ 0 → (s.dirt p).dirty = true →
    (0 < (s.sys.hold p).refs ∨ s.sys.db.OnList .modified p ∨ (s.sys.hold p).writing = true) ∧
      (s.sys.db.frame p).type ≠ .transition

/-- The end of a write-out that does not lose the page: if it succeeded, the page was not marked again
    with nobody but the writer left; if it failed, nobody but the writer is left or the page was
    marked again. -/
def DirtySystem.WriteBackOk (s : DirtySystem) : DirtyAction → Prop
  | .locked (.mpwEnd p true) =>
    ¬ ((s.sys.db.frame p).refCount = 1 ∧ (s.sys.db.frame p).modified = true)
  | .locked (.mpwEnd p false) =>
    (s.sys.db.frame p).refCount = 1 ∨ (s.sys.db.frame p).modified = true
  | _ => True

/-! ## The invariant -/

/-- What the life cycle of a frame says about the contents of its page. -/
def DirtOk : Role → Pfdbe → Dirt → Prop
  | .outside, _, d => d.dirty = false
  | .listed .zero, e, d => e.prototypePte = 0 ∨ d.dirty = false
  | .listed .free, e, d => e.prototypePte = 0 ∨ d.dirty = false
  | .zeroing, e, d => e.prototypePte = 0 ∨ d.dirty = false
  | .listed .standby, _, d => d.dirty = false
  | .listed .modified, e, d => d.dirty = true → e.modified = true
  | .inUse _ false, e, d => d.dirty = true → e.modified = true
  -- the mark was cleared when the write-out began, so it stands for what came after
  | .inUse _ true, e, d => d.since = true → e.modified = true

/-- The invariant of the system. -/
structure DirtySystem.Inv (s : DirtySystem) (L : PfnList → List Pfn) (role : Pfn → Role) :
    Prop where
  refines : Refines s.sys L role
  dirtOk : ∀ p, DirtOk (role p) (s.sys.db.frame p) (s.dirt p)

variable {s s' : DirtySystem} {L : PfnList → List Pfn} {role : Pfn → Role} {a : PfnAction}
  {p q : Pfn} {r r' : Role} {e e' : Pfdbe} {t : Tally} {d : Dirt}

theorem dirtOk_congr_fields (hp : e'.prototypePte = e.prototypePte)
    (hmd : e'.modified = e.modified) (h : DirtOk r e d) : DirtOk r e' d := by
  rcases r with _ | l | ⟨refs, writing⟩ | _
  · exact h
  · cases l <;> simpa only [DirtOk, hp, hmd] using h
  · cases writing <;> simpa only [DirtOk, hmd] using h
  · simpa only [DirtOk, hp] using h

theorem dirtOk_congr (he : e'.unlinked = e.unlinked) (h : DirtOk r e d) : DirtOk r e' d := by
  obtain ⟨-, -, hp, hmd, -⟩ := Pfdbe.fields_of_unlinked he
  exact dirtOk_congr_fields hp hmd h

/-- A locked step leaves the ghost state of the pages it does not move alone. -/
theorem Dirt.after_of_ne {h : Hold} (hst : FrameStep p a r e r' e' t) (hq : q ≠ p) :
    d.after a q h h = d := by
  cases hst with
  | mpwLeave e suc refs => cases suc <;> simp [Dirt.after, hq]
  | _ => simp [Dirt.after, hq]

/-- The frame that moves: the mark covers what the ghost state says, given the contract and the
    condition on the end of a write-out. -/
theorem FrameStep.dirtOk (hst : FrameStep p a r e r' e' t) (hr : FrameOk r e) (hd : DirtOk r e d)
    (hp : ∀ ptr, a = .setPrototypePte p ptr → 0 < r.hold.refs)
    (hmr : a = .setModifiedPfn p ∨ a = .setModifiedPage p → 0 < r.hold.refs)
    (hdt : ∀ fcb off, a = .setCacheDetails p fcb off → e.modified = false)
    (hdn : a = .mpwEnd p true → ¬ (e.refCount = 1 ∧ e.modified = true))
    (hfl : a = .mpwEnd p false → e.refCount = 1 ∨ e.modified = true) :
    DirtOk r' e' (d.after a p r.hold r'.hold) := by
  cases hst with
  | allocate l e hl => simp [DirtOk, Dirt.after, Role.hold]
  | release e refs wr h =>
    cases wr
    · exact hd
    · exact hd
  | releaseFree e h => exact .inl h
  | releaseStandby e h hm =>
    have hc : d.dirty ≠ true := fun hdr => by simp [hd hdr] at hm
    exact Bool.eq_false_iff.2 hc
  | releaseModified e h hm => exact fun _ => hm
  | addReference e refs wr =>
    cases wr
    · exact hd
    · exact hd
  | detransition e l hl =>
    rcases hl with rfl | rfl
    · intro hdr
      have hc : d.dirty = false := hd
      have hdr : d.dirty = true := hdr
      rw [hc] at hdr
      cases hdr
    · exact hd
  | setPrototypePte ptr r e =>
    have hrf := hp ptr rfl
    rcases r with _ | l | ⟨refs, wr⟩ | _
    · simp [Role.hold] at hrf
    · simp [Role.hold] at hrf
    · cases wr
      · exact hd
      · exact hd
    · simp [Role.hold] at hrf
  | setCacheDetails fcb off r e =>
    have hmd := hdt fcb off rfl
    exact dirtOk_congr_fields (e := e) rfl hmd.symm hd
  | setModifiedPfn r e h =>
    have hrf := hmr (.inl rfl)
    rcases r with _ | l | ⟨refs, wr⟩ | _
    · simp [Role.hold] at hrf
    · simp [Role.hold] at hrf
    · cases wr
      · exact fun _ => rfl
      · exact fun _ => rfl
    · simp [Role.hold] at hrf
  | setModifiedPage r e h =>
    have hrf := hmr (.inr rfl)
    rcases r with _ | l | ⟨refs, wr⟩ | _
    · simp [Role.hold] at hrf
    · simp [Role.hold] at hrf
    · cases wr
      · exact fun _ => rfl
      · exact fun _ => rfl
    · simp [Role.hold] at hrf
  | zeroBegin e => exact hd
  | zeroEnd e => exact hd
  | mpwSkip e hm =>
    have hc : d.dirty ≠ true := fun hdr => by simp [hd hdr] at hm
    simp only [DirtOk, Dirt.after, Role.hold]
    exact Bool.eq_false_iff.2 hc
  | mpwBegin e hm => simp [DirtOk, Dirt.after, Role.hold]
  | mpwLeave e suc refs =>
    cases suc with
    | true => simpa [DirtOk, Dirt.after] using hd
    | false =>
      -- others hold the page, so the condition says that it was marked again
      have hrc : e.refCount ≠ 1 := by
        rw [hr.2.1]
        simp only [Bool.toNat_true]
        omega
      exact fun _ => (hfl rfl).resolve_left hrc
  | mpwStandby e =>
    have hrc : e.refCount = 1 := by rw [hr.2.1]; rfl
    have hc : d.since ≠ true := fun hsn => hdn rfl ⟨hrc, hd hsn⟩
    simpa [DirtOk, Dirt.after] using hc
  | mpwReinsert e => exact fun _ => rfl

/-! ## Steps and runs -/

/-- A store to a page that somebody holds and that is marked. -/
theorem DirtySystem.Inv.store (h : s.Inv L role) (hp : 0 < (s.sys.hold p).refs)
    (hmd : (s.sys.db.frame p).modified = true) :
    DirtySystem.Inv { s with dirt := update s.dirt p ⟨true, true⟩ } L role := by
  refine ⟨h.refines, fun q => ?_⟩
  by_cases hq : q = p
  · subst hq
    obtain ⟨refs, wr, hr⟩ := h.refines.inUse_of_refs hp
    simp only [hr, update_self]
    cases wr
    · exact fun _ => hmd
    · exact fun _ => hmd
  · simp only [update_of_ne hq]
    exact h.dirtOk q

theorem DirtySystem.Inv.locked {sys : PfnSystem} (h : s.Inv L role)
    (hC : s.Contract (.locked a)) (hok : s.WriteBackOk (.locked a)) (hs : s.sys.step a = some sys) :
    ∃ L' role', DirtySystem.Inv
      ⟨sys, fun q => (s.dirt q).after a q (s.sys.hold q) (sys.hold q)⟩ L' role' := by
  rcases PfnSystem.step_moved h.refines hC.1 hs with
    ⟨rfl, ha, -⟩ | ⟨p, r', t, L', hst, hot, -, hre⟩
  · refine ⟨L, role, h.refines, fun q => ?_⟩
    have hsm : (s.dirt q).after a q (s.sys.hold q) (s.sys.hold q) = s.dirt q := by
      rcases ha with rfl | rfl | rfl <;> simp [Dirt.after]
    simp only [hsm]
    exact h.dirtOk q
  · refine ⟨L', _, hre, fun q => ?_⟩
    have hh := hre.hold_eq q
    by_cases hq : q = p
    · subst hq
      simp only [hh, h.refines.hold_eq q, update_self]
      have hrf := h.refines.hold_eq q
      refine dirtOk_congr (Pfdbe.unlinked_unlinked _).symm (hst.dirtOk
        (frameOk_unlinked.2 (h.refines.frameOk q))
        (dirtOk_congr (Pfdbe.unlinked_unlinked _) (h.dirtOk q)) ?_ ?_ ?_ ?_ ?_)
      · rintro ptr rfl
        rw [← hrf]
        exact hC.2
      · rintro (rfl | rfl)
        · rw [← hrf]
          exact hC.2
        · rw [← hrf]
          exact hC.1.1
      · rintro fcb offset rfl
        exact hC.2
      · rintro rfl
        exact hok
      · rintro rfl
        exact hok
    · rw [update_of_ne hq] at hh ⊢
      simp only [hh, h.refines.hold_eq q, Dirt.after_of_ne hst hq]
      exact dirtOk_congr (hot q hq) (h.dirtOk q)

/-- What the invariant says about the dirty pages of the cache. -/
theorem DirtySystem.Inv.kept (h : s.Inv L role) : s.Kept := by
  intro p hp hdr
  have hok := h.refines.frameOk p
  have hd := h.dirtOk p
  have hh := h.refines.hold_eq p
  rcases hr : role p with _ | l | ⟨refs, writing⟩ | _ <;> rw [hr] at hok hd hh
  · simp [DirtOk, hdr] at hd
  · cases l with
    | zero | free => simp [DirtOk, hdr, hp] at hd
    | standby => simp [DirtOk, hdr] at hd
    | modified =>
      refine ⟨.inr (.inl ⟨L .modified, h.refines.linked.isList _, ?_⟩), by simp [hok.1]⟩
      exact (h.refines.mem_iff _ p).2 hr
  · refine ⟨?_, by rcases hok.2.2.1 with ht | ⟨ht, -⟩ <;> simp [ht]⟩
    rw [hh]
    cases writing with
    | true => exact .inr (.inr rfl)
    | false => exact .inl (by simpa [Role.hold] using hok.1)
  · simp [DirtOk, hdr, hp] at hd

/-- The state after `MiInitPMM`: no page is dirty. -/
def initDirty (db : Pfdb) (rs : List LoaderMemoryRegion) : DirtySystem :=
  ⟨initSystem db rs, fun _ => {}⟩

/-- **No dirty page is lost.** In every interleaving of the writer's locked steps with those of other
    threads in which each write-out ends as `WriteBackOk` says, a cached page whose contents no
    successful write-out covers is referenced by somebody other than the writer, on the modified
    list, or still in the writer's hands, and never a standby page. -/
theorem dirtyPages_kept (frame : Pfn → Pfdbe) (rs : List LoaderMemoryRegion) (h : MemoryMapOk rs)
    (db : Pfdb) (hinit : miInitPMM frame rs = some db) (s : DirtySystem)
    (hrun : Reaches DirtySystem.step (fun s a => s.Contract a ∧ s.WriteBackOk a)
      (initDirty db rs) s) : s.Kept := by
  have hin : ∃ L role, s.Inv L role := by
    refine hrun.invariant (I := fun s => ∃ L role, DirtySystem.Inv s L role) ?_ ?_
    · obtain ⟨db', L, role, hb, hrf, -⟩ := miInitPMM_refines frame h
      rw [hinit] at hb
      cases hb
      refine ⟨L, role, hrf, fun p => ?_⟩
      rcases role p with _ | l | ⟨refs, writing⟩ | _
      · rfl
      · cases l <;> simp [DirtOk, initDirty]
      · cases writing <;> simp [DirtOk, initDirty]
      · exact .inr rfl
    · rintro s a s' ⟨L, role, hin⟩ ⟨hC, hok⟩ hs
      cases a with
      | locked a =>
        obtain ⟨sys, hy, rfl⟩ := map_eq_some_iff.1 hs
        exact hin.locked hC hok hy
      | store p =>
        cases hs
        exact ⟨L, role, hin.store hC.1 hC.2⟩
  obtain ⟨L, role, hin⟩ := hin
  exact hin.kept

/-! ## Concrete runs -/

/-- A test that implies the contract, to be run on concrete states. -/
def DirtySystem.contractTest (s : DirtySystem) : DirtyAction → Bool
  | .store p => 0 < (s.sys.hold p).refs && (s.sys.db.frame p).modified
  | .locked a => s.sys.contractTest a && match a with
    | .setPrototypePte p _ => decide (0 < (s.sys.hold p).refs)
    | .setModifiedPfn p => decide (0 < (s.sys.hold p).refs)
    | .setCacheDetails p _ _ => !(s.sys.db.frame p).modified
    | _ => true

theorem DirtySystem.contract_of_test (s : DirtySystem) (a : DirtyAction)
    (h : s.contractTest a = true) : s.Contract a := by
  cases a with
  | store p => simpa [contractTest, Contract] using h
  | locked a =>
    simp only [contractTest, Bool.and_eq_true] at h
    refine ⟨s.sys.contract_of_test a h.1, ?_⟩
    cases a with
    | setPrototypePte p ptr | setModifiedPfn p | setCacheDetails p fcb off =>
      simpa using h.2
    | _ => trivial

/-- A test that implies the contract and `WriteBackOk`. -/
def DirtySystem.writeBackTest (s : DirtySystem) (a : DirtyAction) : Bool :=
  s.contractTest a && match a with
    | .locked (.mpwEnd p true) =>
      !((s.sys.db.frame p).refCount = 1 && (s.sys.db.frame p).modified)
    | .locked (.mpwEnd p false) => (s.sys.db.frame p).refCount = 1 || (s.sys.db.frame p).modified
    | _ => true

theorem DirtySystem.writeBack_of_test (s : DirtySystem) (a : DirtyAction)
    (h : s.writeBackTest a = true) : s.Contract a ∧ s.WriteBackOk a := by
  simp only [writeBackTest, Bool.and_eq_true] at h
  refine ⟨s.contract_of_test a h.1, ?_⟩
  cases a with
  | store p => trivial
  | locked a =>
    cases a with
    | mpwEnd p suc =>
      cases suc with
      | true => simpa [WriteBackOk, ← imp_iff_not_or] using h.2
      | false => simpa [WriteBackOk] using h.2
    | _ => trivial

/-- Run actions on the system that `MiInitPMM` leaves for `sampleMap`. -/
def sampleDirtyRun (ok : DirtySystem → DirtyAction → Bool) (as : List DirtyAction) :
    Option DirtySystem :=
  (miInitPMM (fun _ => .zero) sampleMap).bind fun db =>
    runChecked DirtySystem.step ok as (initDirty db sampleMap)

/-- A page of the cache is modified and freed, and the writer starts to write it out. -/
def sampleWriteOut : List DirtyAction :=
  [.locked .allocate, .locked (.setPrototypePte 1 sampleEntry), .locked (.setModifiedPage 1),
    .store 1, .locked (.free 1), .locked .mpwBegin]

/-- While it is written out another thread uses and modifies it again. -/
def sampleReuse : List DirtyAction :=
  [.locked (.addReference 1), .locked (.setModifiedPage 1), .store 1]

/-- The other thread still holds the page when the write-out ends, and frees it afterwards. -/
theorem dirtyPages_kept_sample : ∃ s, sampleDirtyRun DirtySystem.writeBackTest
    (sampleWriteOut ++ sampleReuse ++ [.locked (.mpwEnd 1 true), .locked (.free 1)]) = some s ∧
    s.Kept := by
  have hsm : (sampleDirtyRun DirtySystem.writeBackTest (sampleWriteOut ++ sampleReuse ++
    [DirtyAction.locked (.mpwEnd 1 true), DirtyAction.locked (.free 1)])).isSome = true := by decide +kernel
  obtain ⟨s, hs⟩ := isSome_iff_exists.1 hsm
  obtain ⟨db, hin, hrn⟩ := bind_eq_some_iff.1 hs
  exact ⟨s, hs, dirtyPages_kept _ _ sampleMap_ok db hin s
    (Reaches.of_runChecked DirtySystem.writeBack_of_test hrn)⟩

/-- A run after which a page is a dirty standby page of the cache loses that page. -/
theorem not_kept_of_run (as : List DirtyAction)
    (h : (sampleDirtyRun DirtySystem.contractTest as).map (fun s =>
      ((s.sys.db.frame 1).prototypePte != 0, (s.dirt 1).dirty, (s.sys.db.frame 1).type))
        = some (true, true, .transition)) :
    ∃ db s, miInitPMM (fun _ => .zero) sampleMap = some db ∧
      Reaches DirtySystem.step DirtySystem.Contract (initDirty db sampleMap) s ∧ ¬ s.Kept := by
  obtain ⟨s, hs, hc⟩ := map_eq_some_iff.1 h
  obtain ⟨db, hin, hrn⟩ := bind_eq_some_iff.1 hs
  simp only [Prod.mk.injEq, bne_iff_ne] at hc
  obtain ⟨hp, hdr, hy⟩ := hc
  refine ⟨db, s, hin, Reaches.of_runChecked DirtySystem.contract_of_test hrn, fun hkp => ?_⟩
  exact (hkp 1 hp hdr).2 hy

/-- The page is modified again while it is written out, and freed before the write-out succeeds: the
    writer turns it into a standby page. -/
theorem dirtyPages_not_kept : MemoryMapOk sampleMap ∧ ∃ db s,
    miInitPMM (fun _ => .zero) sampleMap = some db ∧
    Reaches DirtySystem.step DirtySystem.Contract (initDirty db sampleMap) s ∧ ¬ s.Kept := by
  refine ⟨sampleMap_ok, not_kept_of_run (sampleWriteOut ++ sampleReuse ++
      [DirtyAction.locked (.free 1), DirtyAction.locked (.mpwEnd 1 true)]) ?_⟩
  decide +kernel

end Boron.Mm
