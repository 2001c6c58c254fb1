import Boron.Mm.Commit

/-! # The locks of a page fault (`mm/fault.c`)

`MmPageFault` locks the address space, and looks for the VAD with the mutex of the VAD list held. Each
of its helpers gives locks back on its own, on the paths where they are no longer needed. Here a fault
is a function of all that it meets: the entry of the page, the VADs, and the answers of the allocator
and of the mapped object, whatever they are. It tells how often the locks were taken and given back,
and which page frames were put into a page table. -/

namespace Boron.Mm

open List Option

/-- `MM_KERNEL_SPACE_BASE`. -/
def Port.kernelSpaceBase : Port → Nat
  | .amd64 => 0xFFFF800000000000
  | .i386 => 0x80000000
  | .arm => 0x80000000

/-- What a mappable object returns. `FAILED` is every status other than success. -/
inductive ObjectStatus
  | success
  | moreProcessingRequired
  | failed (code : Nat)
  deriving DecidableEq

/-- An answer with a page: the status, and what the page frame number is afterwards. -/
structure PageReply where
  status : ObjectStatus
  pfn : Pfn

/-- All that a fault meets. -/
structure FaultCase where
  /-- The `DEBUG` build, whose assertions are tests. -/
  debug : Bool
  address : Nat
  userModeCode : Bool
  write : Bool
  fetch : Bool
  /-- The entry of the page, if it has a page table. -/
  pte : Option Pte
  /-- `MM_PROT_USER` and `MM_PROT_EXEC` of the entry. -/
  userPage : Bool
  executable : Bool
  userVads : List Vad
  systemVads : List Vad
  inPool : Bool
  /-- What a page of the pool is looked up to be once the locks are given back. -/
  poolPte : Option Pte
  /-- Is there memory for a page table, at first and once the page was read? -/
  room : Bool
  roomAfterRead : Bool
  newPage : Option Pfn
  getPage : PageReply
  readPage : PageReply
  prepareWrite : ObjectStatus
  getPageToWrite : PageReply
  /-- The thread is alerted while it sleeps. -/
  alerted : Bool

/-- The course of a fault. `granted` are the page frames that the allocator or the object returned with
success; `halted` is a kernel crash. -/
structure FaultRun where
  spaceLocks : Nat
  spaceUnlocks : Nat
  vadListLocks : Nat
  vadListUnlocks : Nat
  granted : List Pfn
  installed : List Pfn
  halted : Bool

namespace FaultRun

def start : FaultRun := ⟨0, 0, 0, 0, [], [], false⟩

/-- `MmLockSpaceExclusive` and `MmUnlockSpace`. -/
def lockSpace (r : FaultRun) : FaultRun := { r with spaceLocks := r.spaceLocks + 1 }

def unlockSpace (r : FaultRun) : FaultRun := { r with spaceUnlocks := r.spaceUnlocks + 1 }

/-- `MmpLockVadListByAddress` and `MmUnlockVadList`. -/
def lockVadList (r : FaultRun) : FaultRun := { r with vadListLocks := r.vadListLocks + 1 }

def unlockVadList (r : FaultRun) : FaultRun := { r with vadListUnlocks := r.vadListUnlocks + 1 }

def grant (r : FaultRun) (f : Pfn) : FaultRun := { r with granted := f :: r.granted }

/-- `*PtePtr = MmBuildPte(Pfn, ..)`. -/
def install (r : FaultRun) (f : Pfn) : FaultRun := { r with installed := f :: r.installed }

def halt (r : FaultRun) : FaultRun := { r with halted := true }

/-- An answer of the mapped object. -/
def hear (r : FaultRun) (reply : PageReply) : FaultRun :=
  if reply.status = .success then r.grant reply.pfn else r

end FaultRun

namespace FaultCase

variable (p : Port) (x : FaultCase)

def mmpHandleFaultCommittedPage (r : FaultRun) : FaultStatus × FaultRun :=
  match x.newPage with
  | none => (.refaultSleep, r)
  | some f => (.success, (r.grant f).install f)

/-- `MmpAssignPfnToAddress`, after the assertion that there is a page frame number. -/
def mmpAssignPfnToAddress (f : Pfn) (found : Bool) (r : FaultRun) : FaultStatus × FaultRun :=
  if f = pfnInvalid && x.debug then (.failed, r.halt)
  else if found then (.success, (r.install f).unlockSpace)
  else (.refaultSleep, r.unlockSpace)

/-- `MmpHandleFaultCommittedMappedPage`. The page table of the page is there, unless the address space
was unlocked meanwhile. -/
def mmpHandleFaultCommittedMappedPage (r : FaultRun) : FaultStatus × FaultRun :=
  let r := r.hear x.getPage
  if x.getPage.status = .moreProcessingRequired then
    let r := r.unlockSpace.hear x.readPage
    if x.readPage.status = .success then
      x.mmpAssignPfnToAddress x.readPage.pfn x.roomAfterRead r.lockSpace
    else (.failed, r)
  else x.mmpAssignPfnToAddress x.getPage.pfn true r

/-- The VAD of the address. -/
def vad : Option Vad :=
  p.mmLookUpVadByAddress (if p.kernelSpaceBase ≤ x.address then x.systemVads else x.userVads) x.address

def miNormalFault (r : FaultRun) : FaultStatus × FaultRun :=
  let r := r.lockVadList
  match x.vad p with
  | none =>
    let r := r.unlockVadList.unlockSpace
    if x.inPool then
      match x.poolPte with
      | none => (.failed, r.halt)
      | some e =>
        if mmIsCommittedPte p e then x.mmpHandleFaultCommittedPage r else (.accessViolation, r)
    else (.accessViolation, r)
  | some v =>
    let faultIn := fun (_ : Unit) =>
      let r := r.unlockVadList
      match v.mappedObject with
      | some _ => x.mmpHandleFaultCommittedMappedPage r
      | none =>
        let (status, r) := x.mmpHandleFaultCommittedPage r
        (status, r.unlockSpace)
    if x.pte = none ∨ x.pte = some mmBuildZeroPte then
      if !v.committed then (.accessViolation, r.unlockVadList.unlockSpace)
      else if x.pte = none && !x.room then (.refaultSleep, r.unlockVadList.unlockSpace)
      else faultIn ()
    else if x.pte.any (mmIsCommittedPte p) then faultIn ()
    else (.accessViolation, r.unlockSpace)

/-- `MiWriteFault`, on a page that is present. -/
def miWriteFault (writable : Bool) (r : FaultRun) : FaultStatus × FaultRun :=
  if writable then (.success, r)
  else
    let r := r.lockVadList
    match x.vad p with
    | none => (if x.inPool then .success else .accessViolation, r.unlockVadList)
    | some v =>
      if !hasFlag v.protection 2 then (.accessViolation, r.unlockVadList)
      else
        match v.mappedObject with
        | none => (.success, r.unlockVadList)
        | some _ =>
          if x.prepareWrite ≠ .success then (.failed, r.unlockVadList)
          else
            let r := r.hear x.getPageToWrite
            if x.getPageToWrite.status ≠ .success then (.failed, r.unlockVadList)
            else (.success, (r.install x.getPageToWrite.pfn).unlockVadList)

/-- The end of `MmPageFault`, which sleeps when memory is short. -/
def finish (r : FaultStatus × FaultRun) : FaultStatus × FaultRun :=
  (if r.1 = .refaultSleep then (if x.alerted then .failed else .refault) else r.1, r.2)

def mmPageFault : FaultStatus × FaultRun :=
  if x.userModeCode && decide (p.kernelSpaceBase ≤ x.address) then (.accessViolation, .start)
  else
    let r := FaultRun.start.lockSpace
    match x.pte with
    | some (.present _ writable _) =>
      if !x.userPage && x.userModeCode then (.accessViolation, r.unlockSpace)
      else if !x.executable && x.fetch then (.accessViolation, r.unlockSpace)
      else if x.write then
        let (status, r) := x.miWriteFault p writable r
        x.finish (status, r.unlockSpace)
      else (.success, r.unlockSpace)
    | _ =>
      let (status, r) := x.miNormalFault p r
      x.finish (if status = .success && x.write then .refault else status, r)

end FaultCase

/-! ## What is held -/

namespace FaultRun

variable {r : FaultRun} {space vadList : Nat} {f : Pfn} {reply : PageReply}

/-- The address space and the VAD list are locked so often, and only page frames that were granted are
mapped. -/
structure Holds (r : FaultRun) (space vadList : Nat) : Prop where
  space : r.spaceLocks = r.spaceUnlocks + space
  vadList : r.vadListLocks = r.vadListUnlocks + vadList
  granted : ∀ f ∈ r.installed, f ∈ r.granted ∧ f ≠ pfnInvalid

/-- Every lock was given back. -/
def Safe (r : FaultRun) : Prop := r.Holds 0 0

theorem holds_start : start.Holds 0 0 := ⟨rfl, rfl, fun _ hf => absurd hf not_mem_nil⟩

theorem Holds.lockSpace (h : r.Holds space vadList) : r.lockSpace.Holds (space + 1) vadList :=
  ⟨congrArg (· + 1) h.space, h.vadList, h.granted⟩

theorem Holds.unlockSpace (h : r.Holds (space + 1) vadList) : r.unlockSpace.Holds space vadList := by
  refine ⟨h.space.trans ?_, h.vadList, h.granted⟩
  simp only [FaultRun.unlockSpace]
  omega

theorem Holds.lockVadList (h : r.Holds space vadList) : r.lockVadList.Holds space (vadList + 1) :=
  ⟨h.space, congrArg (· + 1) h.vadList, h.granted⟩

theorem Holds.unlockVadList (h : r.Holds space (vadList + 1)) :
    r.unlockVadList.Holds space vadList := by
  refine ⟨h.space, h.vadList.trans ?_, h.granted⟩
  simp only [FaultRun.unlockVadList]
  omega

theorem Holds.halt (h : r.Holds space vadList) : r.halt.Holds space vadList :=
  ⟨h.space, h.vadList, h.granted⟩

theorem Holds.grant (h : r.Holds space vadList) (f : Pfn) : (r.grant f).Holds space vadList :=
  ⟨h.space, h.vadList, fun g hg => ⟨mem_cons_of_mem _ (h.granted g hg).1, (h.granted g hg).2⟩⟩

theorem Holds.install (h : r.Holds space vadList) (hf : f ∈ r.granted) (hvl : f ≠ pfnInvalid) :
    (r.install f).Holds space vadList := by
  refine ⟨h.space, h.vadList, fun g hg => ?_⟩
  rcases mem_cons.1 hg with rfl | hg
  · exact ⟨hf, hvl⟩
  · exact h.granted g hg

theorem Holds.hear (h : r.Holds space vadList) (reply : PageReply) :
    (r.hear reply).Holds space vadList := by
  rw [FaultRun.hear]
  split
  · exact h.grant _
  · exact h

theorem mem_hear (h : reply.status = .success) : reply.pfn ∈ (r.hear reply).granted := by
  rw [hear, if_pos h]
  exact mem_cons_self

theorem not_safe_of_holds (h : r.Holds space vadList) (hne : ¬ (space = 0 ∧ vadList = 0)) :
    ¬ r.Safe := by
  intro hsf
  have hp := hsf.space
  have hvd := hsf.vadList
  rw [h.space] at hp
  rw [h.vadList] at hvd
  omega

end FaultRun

namespace FaultCase

variable {p : Port} {x : FaultCase} {r : FaultRun} {f : Pfn} {space vadList : Nat}

/-- What the allocator and a mappable object promise: a page that is returned with success has a page
frame number. -/
structure Honest (x : FaultCase) : Prop where
  newPage : ∀ f, x.newPage = some f → f ≠ pfnInvalid
  getPage : x.getPage.status = .success → x.getPage.pfn ≠ pfnInvalid
  readPage : x.readPage.status = .success → x.readPage.pfn ≠ pfnInvalid
  getPageToWrite : x.getPageToWrite.status = .success → x.getPageToWrite.pfn ≠ pfnInvalid

theorem holds_committedPage (hx : x.Honest) (hr : r.Holds space vadList) :
    (x.mmpHandleFaultCommittedPage r).2.Holds space vadList := by
  rw [mmpHandleFaultCommittedPage]
  split
  · exact hr
  · next f hf => exact (hr.grant f).install mem_cons_self (hx.newPage f hf)

theorem holds_assign {found : Bool} (hr : r.Holds 1 0) (hf : f ∈ r.granted) (hvl : f ≠ pfnInvalid) :
    (x.mmpAssignPfnToAddress f found r).2.Safe := by
  rw [mmpAssignPfnToAddress, decide_eq_false hvl, Bool.false_and, if_neg Bool.false_ne_true]
  split
  · exact (hr.install hf hvl).unlockSpace
  · exact hr.unlockSpace

/-- **The page of an object** is mapped safely exactly if the object has the page or asks for it to be
read: any other status is not looked at. -/
theorem mappedPage_safe_iff (hx : x.Honest) (hr : r.Holds 1 0) (hgr : r.granted = []) :
    (x.mmpHandleFaultCommittedMappedPage r).2.Safe ↔
      x.getPage.status = .success ∨ x.getPage.status = .moreProcessingRequired := by
  rw [mmpHandleFaultCommittedMappedPage]
  cases hst : x.getPage.status with
  | success =>
    refine iff_of_true ?_ (.inl rfl)
    rw [if_neg (by simp)]
    exact holds_assign (hr.hear _) (FaultRun.mem_hear hst) (hx.getPage hst)
  | moreProcessingRequired =>
    refine iff_of_true ?_ (.inr rfl)
    have hh := (hr.hear x.getPage).unlockSpace.hear x.readPage
    rw [if_pos rfl]
    by_cases hread : x.readPage.status = .success
    · rw [if_pos hread]
      exact holds_assign hh.lockSpace (FaultRun.mem_hear hread) (hx.readPage hread)
    · rw [if_neg hread]
      exact hh
  | failed code =>
    refine iff_of_false ?_ (by simp)
    have hnn : (r.hear x.getPage).granted = [] := by
      rw [FaultRun.hear, if_neg (by simp [hst]), hgr]
    rw [if_neg (by simp), mmpAssignPfnToAddress]
    split
    · -- the assertion fails with the address space locked
      exact FaultRun.not_safe_of_holds (hr.hear _).halt (by omega)
    · intro hsf
      have hin := (hsf.granted x.getPage.pfn mem_cons_self).1
      rw [if_pos rfl] at hin
      change _ ∈ (r.hear x.getPage).granted at hin
      rw [hnn] at hin
      cases hin

/-- The fault gets to bring in a page of the VAD. -/
def BringsIn (p : Port) (x : FaultCase) (v : Vad) : Prop :=
  if x.pte = none ∨ x.pte = some mmBuildZeroPte then
    v.committed = true ∧ (x.pte = none → x.room = true)
  else x.pte.any (mmIsCommittedPte p) = true

/-- The entry of the page says whether it is committed, and if it is, and is one of an object, the
object has it or asks for it to be read. -/
def Answered (p : Port) (x : FaultCase) (v : Vad) : Prop :=
  (∀ e, x.pte = some e → e = mmBuildZeroPte ∨ mmIsCommittedPte p e = true) ∧
    (x.BringsIn p v → v.mappedObject ≠ none →
      x.getPage.status = .success ∨ x.getPage.status = .moreProcessingRequired)

theorem bringIn_safe_iff (hx : x.Honest) (hr : r.Holds 1 0) (hgr : r.granted = []) (v : Vad) :
    (match v.mappedObject with
      | some _ => x.mmpHandleFaultCommittedMappedPage r
      | none =>
        ((x.mmpHandleFaultCommittedPage r).1, (x.mmpHandleFaultCommittedPage r).2.unlockSpace)).2.Safe ↔
      (v.mappedObject ≠ none →
        x.getPage.status = .success ∨ x.getPage.status = .moreProcessingRequired) := by
  cases v.mappedObject with
  | none => exact iff_of_true (holds_committedPage hx hr).unlockSpace fun h => absurd rfl h
  | some o =>
    rw [mappedPage_safe_iff hx hr hgr]
    simp

/-- **The fault on a page that is not there**, with the address space locked. -/
theorem normalFault_safe_iff (hx : x.Honest) (hr : r.Holds 1 0) (hgr : r.granted = []) :
    (x.miNormalFault p r).2.Safe ↔ ∀ v, x.vad p = some v → x.Answered p v := by
  have hlk := hr.lockVadList
  have hfr : r.lockVadList.unlockVadList.unlockSpace.Safe := hlk.unlockVadList.unlockSpace
  rw [miNormalFault]
  cases hvd : x.vad p with
  | none =>
    refine iff_of_true ?_ nofun
    simp only
    split
    · split
      · exact hfr.halt
      · split
        · exact holds_committedPage hx hfr
        · exact hfr
    · exact hfr
  | some v =>
    have hin := bringIn_safe_iff (r := r.lockVadList.unlockVadList) hx hlk.unlockVadList hgr v
    simp only [some.injEq, forall_eq']
    rw [Answered, BringsIn]
    split
    · next hz =>
        have hkn : ∀ e, x.pte = some e → e = mmBuildZeroPte ∨ mmIsCommittedPte p e = true := by
          intro e he
          rw [he] at hz
          exact .inl (some.inj (hz.resolve_left (some_ne_none e)))
        rw [and_iff_right hkn]
        cases hc : v.committed with
        | false => exact iff_of_true hfr fun h => absurd h.1 Bool.false_ne_true
        | true =>
          by_cases hrm : x.pte = none ∧ x.room = false
          · refine iff_of_true ?_ fun h => absurd (h.2 hrm.1) (by simp [hrm.2])
            simpa [hrm] using hfr
          · have hgt : x.pte = none → x.room = true := fun hnn =>
              Bool.eq_true_of_not_eq_false fun hno => hrm ⟨hnn, hno⟩
            rw [imp_iff_right ⟨rfl, hgt⟩, ← hin]
            have hts : (decide (x.pte = none) && !x.room) = false := by
              by_cases hnn : x.pte = none
              · simp [hgt hnn]
              · simp [hnn]
            simp only [Bool.not_true, Bool.false_eq_true, if_false, hts]
    · next hz =>
        obtain ⟨e, he⟩ := ne_none_iff_exists'.1 fun hnn => hz (.inl hnn)
        have hne : e ≠ mmBuildZeroPte := fun h0 => hz (.inr (h0 ▸ he))
        simp only [he, any_some, some.injEq, forall_eq', hne, false_or]
        cases hmr : mmIsCommittedPte p e with
        | true => rw [if_pos rfl, and_iff_right rfl, imp_iff_right rfl, ← hin]
        | false =>
          -- the exit that keeps the mutex
          refine iff_of_false ?_ fun h => absurd h.1 Bool.false_ne_true
          rw [if_neg Bool.false_ne_true]
          exact FaultRun.not_safe_of_holds hlk.unlockSpace (by omega)

/-- **The fault on a read-only page** gives back what it takes. -/
theorem holds_writeFault (hx : x.Honest) {wri : Bool} (hr : r.Holds 1 0) :
    (x.miWriteFault p wri r).2.Holds 1 0 := by
  have hlk := hr.lockVadList
  rw [miWriteFault]
  split
  · exact hr
  · simp only
    split
    · exact hlk.unlockVadList
    · split
      · exact hlk.unlockVadList
      · split
        · exact hlk.unlockVadList
        · split
          · exact hlk.unlockVadList
          · split
            · exact (hlk.hear _).unlockVadList
            · next hst =>
                have hc := not_not.1 hst
                exact ((hlk.hear _).install (FaultRun.mem_hear hc) (hx.getPageToWrite hc)).unlockVadList

/-- The page is not there, and the access is not refused at once. -/
def IsNormal (p : Port) (x : FaultCase) : Prop :=
  ¬ (x.userModeCode = true ∧ p.kernelSpaceBase ≤ x.address) ∧
    ∀ e, x.pte = some e → mmIsPresentPte e = false

/-- **A page fault** gives back every lock that it takes and maps only what was granted exactly if, where
it has to bring in a page, the entry says whether the page is committed and the object knows it. -/
theorem pageFault_safe_iff (hx : x.Honest) :
    (x.mmPageFault p).2.Safe ↔ (x.IsNormal p → ∀ v, x.vad p = some v → x.Answered p v) := by
  have hlk := FaultRun.holds_start.lockSpace
  rw [mmPageFault, IsNormal]
  split
  · next hrf =>
      rw [Bool.and_eq_true, decide_eq_true_eq] at hrf
      exact iff_of_true FaultRun.holds_start fun h => absurd hrf h.1
  · next hrf =>
      rw [Bool.and_eq_true, decide_eq_true_eq] at hrf
      rw [and_iff_right hrf]
      simp only
      split
      · next f writable pmm he =>
          refine iff_of_true ?_ fun h => absurd (h _ he) (by simp [mmIsPresentPte])
          split
          · exact hlk.unlockSpace
          · split
            · exact hlk.unlockSpace
            · split
              · exact (holds_writeFault hx hlk).unlockSpace
              · exact hlk.unlockSpace
      · next hno =>
          have ha : ∀ e, x.pte = some e → mmIsPresentPte e = false := by
            intro e he
            cases e with
            | present f writable pmm => exact absurd he (hno f writable pmm)
            | absent word => rfl
          rw [imp_iff_right ha]
          exact normalFault_safe_iff hx hlk rfl

/-- A read of the first page of a VAD that maps an object, whose page has no page table yet. -/
def sample (debug : Bool) (getPage readPage : PageReply) : FaultCase where
  debug := debug
  address := 0x10008
  userModeCode := true
  write := false
  fetch := false
  pte := none
  userPage := true
  executable := true
  userVads := [⟨⟨0x10000, 1⟩, true, false, 3, some 0, 0⟩]
  systemVads := []
  inPool := false
  poolPte := none
  room := true
  roomAfterRead := true
  newPage := none
  getPage := getPage
  readPage := readPage
  prepareWrite := .success
  getPageToWrite := ⟨.success, 7⟩
  alerted := false

theorem sample_honest {debug : Bool} {gp rp : PageReply}
    (hgt : gp.status = .success → gp.pfn ≠ pfnInvalid)
    (hread : rp.status = .success → rp.pfn ≠ pfnInvalid) :
    (sample debug gp rp).Honest :=
  ⟨fun _ h => absurd h (some_ne_none _).symm, hgt, hread,
    fun _ => (show (7 : Pfn) ≠ pfnInvalid by decide)⟩

/-- A page that has to be read in is mapped safely. -/
theorem pageFault_safe_readIn :
    ((sample true ⟨.moreProcessingRequired, pfnInvalid⟩ ⟨.success, 7⟩).mmPageFault .amd64).1 = .success ∧
      ((sample true ⟨.moreProcessingRequired, pfnInvalid⟩ ⟨.success, 7⟩).mmPageFault .amd64).2.Safe := by
  refine ⟨by decide +kernel, (pageFault_safe_iff (sample_honest (by decide) (by decide))).2 ?_⟩
  intro _ v _
  exact ⟨fun e he => absurd he (some_ne_none e).symm, fun _ _ => .inr rfl⟩

/-- An object that runs out of memory: the release build maps `PFN_INVALID`, the other halts with the
address space locked. -/
theorem pageFault_out_of_memory :
    ¬ ∀ debug : Bool, ((sample debug ⟨.failed 1, pfnInvalid⟩ ⟨.failed 1, pfnInvalid⟩).mmPageFault
      .amd64).2.Safe := by
  intro ha
  have hin : ((sample false ⟨.failed 1, pfnInvalid⟩ ⟨.failed 1, pfnInvalid⟩).mmPageFault
      .amd64).2.installed = [pfnInvalid] := by
    decide +kernel
  exact ((ha false).granted pfnInvalid (by rw [hin]; exact mem_singleton_self _)).2 rfl

end FaultCase

end Boron.Mm
