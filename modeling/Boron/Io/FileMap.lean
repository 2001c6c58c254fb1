import Boron.Lib.Run
import Boron.Mm.Pfn

/-! # Faults on the pages of files (`io/filemap.c`, `mm/cache.c`)

A fault on a page of a file asks `IopGetPageFromFile` for it, and `IopReadPageFromFile` when it is not
in the page cache. The latter clears the entry of the page in the CCB, reads the page into a new
frame, and sets the entry. Each of the three is locked for itself, so that any number of faults on
one page may be between them.

`MmSetEntryCcb` does not look at what an entry names before it replaces it, and the status
`STATUS_CONFLICTING_ADDRESSES`, which the callers are made for, is never returned.
`oneFrame_iff` says that this is all that goes wrong. -/

namespace Boron.Io

open Function Option

open Mm (Pfn)

/-! ## The code -/

section

variable {K : Type} [DecidableEq K]

/-- What `MmAssignEntrySlaEx` does: it assigns the entry, finds no memory for a level of the array,
or finds the index too big. -/
inductive SlaResult
  | assigned
  | outOfMemory
  | tooBig
  deriving DecidableEq, Repr

inductive SetStatus
  | success
  | insufficientMemory
  | invalidParameter
  | conflictingAddresses
  deriving DecidableEq, Repr

/-- `MmSetEntryCcb`; no PFN stands for `PFN_INVALID`. -/
def mmSetEntryCcb (entry : K → Option Pfn) (pageOffset : K) (inPfn : Option Pfn) :
    SlaResult → SetStatus × (K → Option Pfn)
  | .assigned => (.success, update entry pageOffset inPfn)
  | .outOfMemory => (.insufficientMemory, entry)
  | .tooBig => (if inPfn = none then .success else .invalidParameter, entry)

/-- What the `BackingMemory` method of the file's driver gives for a page. -/
inductive BackingAnswer
  | noMethod
  | outOfFileBounds
  | failed
  | page (p : Pfn)

/-- Where a fault is. -/
inductive FaultPc (K : Type)
  /-- it did not begin, or it is over without a page or with one that is no longer mapped -/
  | idle
  /-- `IopGetPageFromFile` returned `STATUS_MORE_PROCESSING_REQUIRED` -/
  | missed (page : K)
  /-- `IopReadPageFromFile` has cleared the entry -/
  | cleared (page : K)
  /-- the frame is allocated and the page is being read into it -/
  | reading (page : K) (p : Pfn)
  /-- the page was read -/
  | read (page : K) (p : Pfn)
  /-- the page cache gave the frame, and its mapping is live -/
  | mapped (page : K) (p : Pfn)
  /-- the driver gave the frame, and its mapping is live -/
  | backed (page : K) (p : Pfn)
  deriving DecidableEq

def iopGetPageFromFile (entry : K → Option Pfn) (page : K) : BackingAnswer → FaultPc K
  | .page p => .backed page p
  | .failed => .idle
  | .noMethod | .outOfFileBounds =>
    match entry page with
    | some p => .mapped page p
    | none => .missed page

/-- `RedirectToGetPage`: `IopReadPageFromFile` returns what `IopGetPageFromFile` does, and a fault that
still has no page fails. -/
def redirectToGetPage (entry : K → Option Pfn) (page : K) (backing : BackingAnswer) : FaultPc K :=
  match iopGetPageFromFile entry page backing with
  | .missed _ => .idle
  | pc => pc

end

/-- The entries of the CCBs by page, and the faults. -/
structure PageFaults (T K : Type) where
  entry : K → Option Pfn
  pc : T → FaultPc K

/-- The steps of a fault, in their order; the end of its mapping; and the reclaim of a page in the
standby list, which clears its entry. -/
inductive FaultStep (T K : Type)
  | getPage (t : T) (page : K) (backing : BackingAnswer)
  | setEmpty (t : T) (result : SlaResult) (backing : BackingAnswer)
  | allocate (t : T) (pfn : Option Pfn)
  | pagingRead (t : T) (success : Bool)
  | setEntry (t : T) (result : SlaResult) (backing : BackingAnswer)
  | unmap (t : T)
  | reclaim (page : K)

namespace PageFaults

variable {T K : Type} [DecidableEq T] [DecidableEq K]

/-- The fault goes on. -/
def moveTo (s : PageFaults T K) (t : T) (pc : FaultPc K) : PageFaults T K :=
  { s with pc := update s.pc t pc }

/-- A step; `none` where it is not possible or an assertion fails. -/
def step (s : PageFaults T K) : FaultStep T K → Option (PageFaults T K)
  | .getPage t page backing =>
    match s.pc t with
    | .idle => some (s.moveTo t (iopGetPageFromFile s.entry page backing))
    | _ => none
  | .setEmpty t result backing =>
    match s.pc t with
    | .missed page =>
      match mmSetEntryCcb s.entry page none result with
      | (.success, entry) => some ({ s with entry }.moveTo t (.cleared page))
      | (.conflictingAddresses, entry) =>
        some ({ s with entry }.moveTo t (redirectToGetPage entry page backing))
      | (_, entry) => some ({ s with entry }.moveTo t .idle)
    | _ => none
  | .allocate t pfn =>
    match s.pc t with
    | .cleared page =>
      match pfn with
      | none => some (s.moveTo t .idle)
      | some p => some (s.moveTo t (.reading page p))
    | _ => none
  | .pagingRead t success =>
    match s.pc t with
    | .reading page p => some (s.moveTo t (if success then .read page p else .idle))
    | _ => none
  | .setEntry t result backing =>
    match s.pc t with
    | .read page p =>
      match mmSetEntryCcb s.entry page (some p) result with
      | (.success, entry) => some ({ s with entry }.moveTo t (.mapped page p))
      | (.conflictingAddresses, entry) =>
        some ({ s with entry }.moveTo t (redirectToGetPage entry page backing))
      | (.insufficientMemory, entry) => some ({ s with entry }.moveTo t .idle)
      -- `ASSERT(Status == STATUS_INSUFFICIENT_MEMORY)`
      | (.invalidParameter, _) => none
    | _ => none
  | .unmap t =>
    match s.pc t with
    | .mapped _ _ | .backed _ _ => some (s.moveTo t .idle)
    | _ => none
  | .reclaim page => some { s with entry := update s.entry page none }

/-- The faults that the page cache served for a page, and whose mappings are live, have the same
frame, and it is the one that the entry names. -/
structure OneFrame (s : PageFaults T K) : Prop where
  same : ∀ t t' page p q, s.pc t = .mapped page p → s.pc t' = .mapped page q → p = q
  named : ∀ t page p, s.pc t = .mapped page p → s.entry page = some p

/-- A page that somebody has mapped is not on the standby list. -/
def Contract (s : PageFaults T K) : FaultStep T K → Prop
  | .reclaim page => ∀ p, s.entry page = some p → ∀ t, s.pc t ≠ .mapped page p
  | _ => True

/-- If the entry names another frame than the new one, no fault has it mapped any more. -/
def Replaceable (s : PageFaults T K) (page : K) (new : Option Pfn) : Prop :=
  ∀ p, s.entry page = some p → new ≠ some p → ∀ t, s.pc t ≠ .mapped page p

/-- `MmSetEntryCcb` replaces no entry whose frame is mapped. -/
def Meets (s : PageFaults T K) : FaultStep T K → Prop
  | .setEmpty t result _ =>
    ∀ page, s.pc t = .missed page → result = .assigned → s.Replaceable page none
  | .setEntry t result _ =>
    ∀ page p, s.pc t = .read page p → result = .assigned → s.Replaceable page (some p)
  | _ => True

/-! ## One step -/

variable {s s' : PageFaults T K} {t : T} {page : K} {pc : FaultPc K}

omit [DecidableEq T] [DecidableEq K] in
theorem oneFrame_of_named (h : ∀ t page p, s.pc t = .mapped page p → s.entry page = some p) :
    s.OneFrame where
  same := fun t t' page _ _ hp hq => some.inj ((h t page _ hp).symm.trans (h t' page _ hq))
  named := h

omit [DecidableEq K] in
/-- A fault goes on, and if it has a frame now, it is the one that the entry names. -/
theorem OneFrame.moveTo (h : s.OneFrame) (hp : ∀ page p, pc = .mapped page p →
    s.entry page = some p) : (s.moveTo t pc).OneFrame := by
  refine oneFrame_of_named fun t' page p ht' => ?_
  change update s.pc t pc t' = _ at ht'
  by_cases htt : t' = t
  · rw [htt, update_self] at ht'
    exact hp page p ht'
  · rw [update_of_ne htt] at ht'
    exact h.named t' page p ht'

theorem OneFrame.assign_iff {new : Option Pfn} (h : s.OneFrame) (ht : ∀ p, s.pc t ≠ .mapped page p)
    (hc : ∀ page' p, pc = .mapped page' p → page' = page ∧ new = some p) :
    (PageFaults.moveTo { s with entry := update s.entry page new } t pc).OneFrame ↔
      s.Replaceable page new := by
  constructor
  · intro h' p hp hne t' ht'
    have htt : t' ≠ t := fun heq => ht p (heq ▸ ht')
    have hnm : update s.entry page new page = some p :=
      h'.named t' page p ((update_of_ne htt ..).trans ht')
    rw [update_self] at hnm
    exact hne hnm
  · intro hrp
    refine oneFrame_of_named fun t' page' p ht' => ?_
    change update s.pc t pc t' = _ at ht'
    change update s.entry page new page' = _
    by_cases htt : t' = t
    · rw [htt, update_self] at ht'
      obtain ⟨rfl, hw⟩ := hc page' p ht'
      rw [update_self, hw]
    · rw [update_of_ne htt] at ht'
      have hnm := h.named t' page' p ht'
      by_cases hpg : page' = page
      · subst hpg
        rw [update_self]
        by_contra hne
        exact hrp p hnm hne t' ht'
      · rw [update_of_ne hpg, hnm]

omit [DecidableEq K] in
theorem getPage_named {entry : K → Option Pfn} {bac : BackingAnswer} {page' : K} {p : Pfn}
    (h : iopGetPageFromFile entry page bac = .mapped page' p) : entry page' = some p := by
  cases bac with
  | page q => cases h
  | failed => cases h
  | noMethod | outOfFileBounds =>
    simp only [iopGetPageFromFile] at h
    cases he : entry page with
    | none =>
      rw [he] at h
      cases h
    | some q =>
      rw [he] at h
      cases h
      exact he

/-- **A step keeps the faults of each page at one frame** just if it does not replace an entry whose
frame is mapped. -/
theorem oneFrame_step_iff {a : FaultStep T K} (h : s.OneFrame) (hC : s.Contract a)
    (hst : s.step a = some s') : s'.OneFrame ↔ s.Meets a := by
  cases a with
  | getPage t page bac =>
    simp only [step] at hst
    split at hst
    · cases hst
      exact iff_of_true (h.moveTo fun page' p hp => getPage_named hp) trivial
    · cases hst
  | allocate t pfn =>
    simp only [step] at hst
    split at hst
    · cases pfn with
      | none =>
        cases hst
        exact iff_of_true (h.moveTo fun _ _ hp => by cases hp) trivial
      | some p =>
        cases hst
        exact iff_of_true (h.moveTo fun _ _ hp => by cases hp) trivial
    · cases hst
  | pagingRead t suc =>
    simp only [step] at hst
    split at hst
    · cases hst
      exact iff_of_true (h.moveTo fun _ _ hp => by cases suc <;> cases hp) trivial
    · cases hst
  | unmap t =>
    simp only [step] at hst
    split at hst
    · cases hst
      exact iff_of_true (h.moveTo fun _ _ hp => by cases hp) trivial
    · cases hst
      exact iff_of_true (h.moveTo fun _ _ hp => by cases hp) trivial
    · cases hst
  | reclaim page =>
    cases hst
    refine iff_of_true (oneFrame_of_named fun t' page' p ht' => ?_) trivial
    have hne : page' ≠ page := by
      rintro rfl
      exact hC p (h.named t' page' p ht') t' ht'
    exact (update_of_ne hne ..).trans (h.named t' page' p ht')
  | setEmpty t res bac =>
    simp only [step] at hst
    split at hst
    · next page hc =>
        have hmt : s.Meets (.setEmpty t res bac) ↔ (res = .assigned → s.Replaceable page none) := by
          simp only [Meets, hc, FaultPc.missed.injEq, forall_eq']
        rw [hmt]
        cases res with
        | assigned =>
          cases hst
          rw [h.assign_iff (fun p hp => by cases hc.symm.trans hp) fun _ _ hp => by cases hp]
          simp
        | outOfMemory =>
          cases hst
          exact iff_of_true (h.moveTo fun _ _ hp => by cases hp) fun hr => by cases hr
        | tooBig =>
          cases hst
          exact iff_of_true (h.moveTo fun _ _ hp => by cases hp) fun hr => by cases hr
    · cases hst
  | setEntry t res bac =>
    simp only [step] at hst
    split at hst
    · next page p hc =>
        have hmt : s.Meets (.setEntry t res bac) ↔ (res = .assigned → s.Replaceable page (some p)) := by
          simp only [Meets, hc, FaultPc.read.injEq, and_imp]
          exact ⟨fun h => h page p rfl rfl, by rintro h _ _ rfl rfl; exact h⟩
        rw [hmt]
        cases res with
        | assigned =>
          cases hst
          rw [h.assign_iff (fun q hq => by cases hc.symm.trans hq) fun _ _ hq => by
            cases hq
            exact ⟨rfl, rfl⟩]
          simp
        | outOfMemory =>
          cases hst
          exact iff_of_true (h.moveTo fun _ _ hp => by cases hp) fun hr => by cases hr
        | tooBig => cases hst
    · cases hst

/-! ## Every run -/

/-- **One frame for each cached page.** From a state in which no page is mapped, a run keeps the
faults of each page at the frame that the entry names, just if none of its calls of `MmSetEntryCcb`
replaces an entry whose frame is mapped. -/
theorem oneFrame_iff {acts : List (FaultStep T K)} (h₀ : ∀ t page p, s.pc t ≠ .mapped page p)
    (hC : Along step Contract s acts) :
    Stays step OneFrame s acts ↔ Along step Meets s acts :=
  stays_iff_along (fun _ _ _ h hC hst => oneFrame_step_iff h hC hst)
    (oneFrame_of_named fun t page p h => absurd h (h₀ t page p)) hC

/-- Nothing is cached, and no fault has begun. -/
def start : PageFaults Nat Nat := ⟨fun _ => none, fun _ => .idle⟩

/-- A fault that reads page 0, and one that finds it. -/
def oneRead : List (FaultStep Nat Nat) :=
  [.getPage 0 0 .noMethod, .setEmpty 0 .assigned .noMethod, .allocate 0 (some 10),
    .pagingRead 0 true, .setEntry 0 .assigned .noMethod, .getPage 1 0 .noMethod]

/-- Two faults on page 0, each of which misses before the other has filled the entry. -/
def twoReads : List (FaultStep Nat Nat) :=
  [.getPage 0 0 .noMethod, .getPage 1 0 .noMethod, .setEmpty 0 .assigned .noMethod,
    .setEmpty 1 .assigned .noMethod, .allocate 0 (some 10), .allocate 1 (some 11),
    .pagingRead 0 true, .pagingRead 1 true, .setEntry 0 .assigned .noMethod,
    .setEntry 1 .assigned .noMethod]

theorem oneFrame_oneRead : Stays step OneFrame start oneRead := by
  refine (oneFrame_iff (fun t page p h => ?_) (Along.of_forall ?_ start)).2 ?_
  · cases (h : FaultPc.idle = FaultPc.mapped page p)
  · simp [oneRead, Contract]
  · -- the entry is empty when it is cleared, and when it is set
    refine (along_cons rfl).2 ⟨trivial, (along_cons rfl).2 ⟨fun page hc _ p hp => ?_,
      (along_cons rfl).2 ⟨trivial, (along_cons rfl).2 ⟨trivial, (along_cons rfl).2
        ⟨fun page p hc _ q hq => ?_, (along_cons rfl).2 ⟨trivial, trivial⟩⟩⟩⟩⟩⟩
    · cases (hp : none = some p)
    · cases (hc : FaultPc.read 0 10 = FaultPc.read page p)
      cases (hq : none = some q)

/-- Two faults on a page end with two frames, though nothing was reclaimed. -/
theorem twoReads_twoFrames :
    Along step Contract start twoReads ∧ ¬ Stays step OneFrame start twoReads := by
  constructor
  · exact Along.of_forall (by simp [twoReads, Contract]) start
  · intro h
    have he := h.at_end rfl
    exact absurd (he.same 0 1 0 10 11 rfl rfl) (by decide)

end PageFaults

end Boron.Io
