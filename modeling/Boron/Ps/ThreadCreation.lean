import Boron.Lib.Run
import Mathlib.Tactic.SplitIfs

/-! # Failed creation of a thread (`ps/thread.c`, `ex/servsup.c`, `ps/userthrd.c`)

One call of `OSCreateThread` or `PsCreateSystemThread`, step by step, while everything else goes on:
the scheduler runs the new thread as soon as it is ready, other threads of the caller use or close its
handle, and references on the process come and go.

`PspInitializeThread` readies the thread in the middle of `ExCreateObjectUserCall`. A call that fails
later cannot take that back: the thread runs on with a start context that the call frees, or stays
suspended with its references (`failed_right_iff`). -/

namespace Boron.Ps

open Option

/-- The service that is called. `PsCreateSystemThread` gets its start context, if there is one, from
its caller, who frees it when the call fails, as `OSCreateThread` does. -/
inductive CreationService
  | osCreateThread
  | psCreateSystemThread (hasContext : Bool)
  deriving DecidableEq

/-- Where the call is. -/
inductive CreationStage
  /-- `OSCreateThread`, before it allocates the start context. -/
  | entered
  /-- `PsCreateSystemThread`, before it references the process. -/
  | allocated
  /-- In `ExCreateObjectUserCall`, before there is an object. -/
  | referenced
  /-- In `PspInitializeThread`, before there is a kernel stack. -/
  | created
  /-- Before `KeReadyThread`. -/
  | initialized
  /-- Before `ObInsertObject`. -/
  | readied
  /-- Before the handle is copied out. -/
  | inserted
  /-- Before the reference that was made with the thread is dropped, and the call succeeds. -/
  | delivered
  | releasing
  | succeeded
  /-- The handle could not be copied out, and is closed. -/
  | closing
  /-- At `FailUndo`. -/
  | undoing
  /-- `ExCreateObjectUserCall` has failed. -/
  | disposing
  /-- `PsCreateSystemThread` has failed. -/
  | freeing
  | failed
  deriving DecidableEq

/-- What has become of the thread. `ready` to `terminated` is up to the scheduler. -/
inductive CreatedStatus
  | uninitialized
  | initialized
  | ready
  | running
  | started
  | terminated
  deriving DecidableEq

/-- `contexts` is how many start contexts were allocated, `frees` how often they were freed.
`processCount` is the reference count of the process, `others` the part of it that has nothing to do
with this call. `threadCount` is the reference count of the thread object, `users` the references that
services called by other threads have on it. -/
structure ThreadCreation where
  stage : CreationStage
  contexts : Nat
  frees : Nat
  processCount : Nat
  others : Nat
  status : CreatedStatus
  everReady : Bool
  threadCount : Nat
  users : Nat
  handle : Bool
  deriving DecidableEq

namespace ThreadCreation

/-- The call is about to start, for a process with `n` references. -/
def start (service : CreationService) (n : Nat) : ThreadCreation where
  stage := match service with
    | .osCreateThread => .entered
    | .psCreateSystemThread _ => .allocated
  contexts := match service with
    | .osCreateThread => 0
    | .psCreateSystemThread hasContext => hasContext.toNat
  frees := 0
  processCount := n
  others := n
  status := .uninitialized
  everReady := false
  threadCount := 0
  users := 0
  handle := false

/-- `ObDereferenceObject` on the process; it asserts that there is a reference. -/
def dereferenceProcess (s : ThreadCreation) : Option ThreadCreation :=
  if s.processCount = 0 then none else some { s with processCount := s.processCount - 1 }

/-- `ObDereferenceObject` on the thread. -/
def dereferenceThread (s : ThreadCreation) : Option ThreadCreation :=
  if s.threadCount = 0 then none else some { s with threadCount := s.threadCount - 1 }

def keReadyThread (s : ThreadCreation) : ThreadCreation :=
  { s with status := .ready, everReady := true }

/-- The next step of the call; `ok` says whether what may fail in it succeeds. -/
def turn (s : ThreadCreation) (createSuspended ok : Bool) : Option ThreadCreation :=
  match s.stage with
  | .entered =>
    if ok then some { s with stage := .allocated, contexts := 1 }
    else some { s with stage := .failed }
  | .allocated =>
    if ok then some { s with stage := .referenced, processCount := s.processCount + 1 }
    else some { s with stage := .freeing }
  | .referenced =>
    if ok then some { s with stage := .created, threadCount := 1 }
    else some { s with stage := .disposing }
  | .created =>
    if ok then
      some { s with
        stage := .initialized
        status := .initialized
        processCount := s.processCount + 1
        threadCount := s.threadCount + 1 }
    else some { s with stage := .disposing }
  | .initialized =>
    if createSuspended then some { s with stage := .readied }
    else some { s.keReadyThread with stage := .readied }
  | .readied =>
    if ok then
      some { s with stage := .inserted, handle := true, threadCount := s.threadCount + 1 }
    else some { s with stage := .undoing }
  | .inserted =>
    if ok then some { s with stage := .delivered } else some { s with stage := .closing }
  | .closing =>
    if s.handle then { s with stage := .undoing, handle := false }.dereferenceThread
    else some { s with stage := .undoing }
  | .undoing => { s with stage := .disposing }.dereferenceThread
  | .disposing => { s with stage := .freeing }.dereferenceProcess
  | .freeing => some { s with stage := .failed, frees := s.frees + s.contexts }
  | .delivered => { s with stage := .releasing }.dereferenceThread
  | .releasing => { s with stage := .succeeded }.dereferenceProcess
  | .succeeded | .failed => none

end ThreadCreation

/-- A step of the call, or of something else. -/
inductive CreationAction
  | turn (ok : Bool)
  /-- Anything else references the process. -/
  | referenceProcess
  /-- Anything else drops a reference on the process. -/
  | dereferenceProcess
  /-- The scheduler picks the thread. -/
  | dispatch
  /-- The start routine, which copies its context and frees it. -/
  | pspUserThreadStart
  /-- The thread ends: `PspTerminateThread`. -/
  | pspTerminateThread
  /-- A service of another thread references the thread by its handle. -/
  | obReferenceObjectByHandle
  /-- It drops the reference. -/
  | obDereferenceObject
  /-- `OSSetSuspendedThread`, with `false`. -/
  | osSetSuspendedThread
  /-- Another thread closes the handle. -/
  | osClose
  deriving DecidableEq

namespace ThreadCreation

def step (createSuspended : Bool) (s : ThreadCreation) : CreationAction → Option ThreadCreation
  | .turn ok => s.turn createSuspended ok
  | .referenceProcess =>
    some { s with processCount := s.processCount + 1, others := s.others + 1 }
  | .dereferenceProcess =>
    if s.others = 0 then none else { s with others := s.others - 1 }.dereferenceProcess
  | .dispatch => if s.status = .ready then some { s with status := .running } else none
  | .pspUserThreadStart =>
    if s.status = .running then some { s with status := .started, frees := s.frees + s.contexts }
    else none
  | .pspTerminateThread =>
    if s.status = .started then
      { s with status := .terminated }.dereferenceThread.bind (·.dereferenceProcess)
    else none
  | .obReferenceObjectByHandle =>
    if s.handle then some { s with users := s.users + 1, threadCount := s.threadCount + 1 } else none
  | .obDereferenceObject =>
    if s.users = 0 then none else { s with users := s.users - 1 }.dereferenceThread
  | .osSetSuspendedThread =>
    if s.users = 0 then none
    else if s.status = .initialized then some s.keReadyThread
    else some s
  | .osClose => if s.handle then { s with handle := false }.dereferenceThread else none

/-! ## What a failed call is to leave -/

/-- Nothing is excluded. -/
def AnyStep (_ : ThreadCreation) (_ : CreationAction) : Prop := True

/-- From when the call has failed the thread is never ready, the start context is freed once, and the
process has the references that have nothing to do with the call. -/
def Right (createSuspended : Bool) (s : ThreadCreation) : Prop :=
  s.stage = .failed → ∀ t, Reaches (step createSuspended) AnyStep s t →
    t.everReady = false ∧ t.frees = t.contexts ∧ t.processCount = t.others

/-- There is room for the handle, and it can be copied out. -/
def Benign (s : ThreadCreation) : CreationAction → Prop
  | .turn ok => (s.stage = .readied ∨ s.stage = .inserted) → ok = true
  | _ => True

instance (s : ThreadCreation) (a : CreationAction) : Decidable (s.Benign a) := by
  cases a <;> unfold Benign <;> infer_instance

/-! ## The references and the context -/

/-- The reference of the call on the process. -/
def held (s : ThreadCreation) : Nat :=
  match s.stage with
  | .entered | .allocated | .freeing | .succeeded | .failed => 0
  | _ => 1

/-- The reference of the thread on the process, from when it is initialized until it has ended. -/
def threadReference (s : ThreadCreation) : Nat :=
  match s.status with
  | .uninitialized | .terminated => 0
  | _ => 1

/-- The create method has yet to do its work, or failed. -/
def Unstarted (s : ThreadCreation) : Prop := s.status = .uninitialized

instance (s : ThreadCreation) : Decidable s.Unstarted := inferInstanceAs (Decidable (_ = _))

/-- The call fails although there is a thread. -/
def Doomed (s : ThreadCreation) : Prop :=
  ¬ s.Unstarted ∧ s.stage ∈ [.closing, .undoing, .disposing, .freeing, .failed]

/-- What holds throughout. -/
structure Sound (s : ThreadCreation) : Prop where
  counted : s.processCount = s.others + s.held + s.threadReference
  ready : s.everReady = true ↔ s.status ≠ .uninitialized ∧ s.status ≠ .initialized
  early : s.stage ∈ [.entered, .allocated, .referenced, .created] → s.Unstarted
  late : s.stage ∈ [.initialized, .readied, .inserted, .delivered, .releasing, .succeeded, .closing,
    .undoing] → ¬ s.Unstarted
  initial : s.stage = .initialized → s.status = .initialized
  unused : s.Unstarted ∨ s.stage = .initialized → s.users = 0 ∧ s.handle = false
  freed : s.Unstarted → s.frees = if s.stage = .failed then s.contexts else 0
  unallocated : s.stage = .entered → s.contexts = 0

theorem start_sound (ser : CreationService) (n : Nat) : (start ser n).Sound := by
  cases ser <;> constructor <;> simp [start, held, threadReference, Unstarted]

variable {createSuspended : Bool} {s t : ThreadCreation} {a : CreationAction}

theorem dereferenceProcess_eq (h : s.dereferenceProcess = some t) :
    0 < s.processCount ∧ t = { s with processCount := s.processCount - 1 } := by
  unfold dereferenceProcess at h
  split at h
  · cases h
  · exact ⟨by omega, (some.inj h).symm⟩

theorem dereferenceThread_eq (h : s.dereferenceThread = some t) :
    t = { s with threadCount := s.threadCount - 1 } := by
  unfold dereferenceThread at h
  split at h
  · cases h
  · exact (some.inj h).symm

/-- A turn of the call keeps the accounts. -/
theorem Sound.turn {ok : Bool} (hs : s.Sound) (h : s.turn createSuspended ok = some t) : t.Sound := by
  obtain ⟨hc, hrd, he, hla, hin, hun, hfreed, hu⟩ := hs
  obtain ⟨stage, con, frees, pc, oth, st, er, tc, users, handle⟩ := s
  cases stage <;> simp only [ThreadCreation.turn] at h
  case entered | allocated | referenced | created | readied | inserted =>
    split at h <;> obtain rfl := some.inj h <;>
      constructor <;> simp_all [held, threadReference, Unstarted]
  case initialized =>
    split at h <;> obtain rfl := some.inj h <;>
      constructor <;> simp_all [held, threadReference, Unstarted, keReadyThread]
  case closing =>
    split at h
    · obtain rfl := dereferenceThread_eq h
      constructor <;> simp_all [held, threadReference, Unstarted]
    · cases h
      constructor <;> simp_all [held, threadReference, Unstarted]
  case undoing | delivered =>
    obtain rfl := dereferenceThread_eq h
    constructor <;> simp_all [held, threadReference, Unstarted]
  case disposing | releasing =>
    obtain ⟨hpos, rfl⟩ := dereferenceProcess_eq h
    constructor <;> simp_all [held, threadReference, Unstarted]
  case freeing =>
    cases h
    constructor <;> simp_all [held, threadReference, Unstarted]
  case succeeded | failed => cases h

/-- So does anything else. -/
theorem Sound.step (hs : s.Sound) (h : step createSuspended s a = some t) : t.Sound := by
  obtain ⟨hc, hrd, he, hla, hin, huu, hfreed, hun⟩ := id hs
  cases a <;> simp only [ThreadCreation.step] at h
  case turn ok => exact hs.turn h
  case referenceProcess =>
    cases h
    constructor <;> simp_all [held, threadReference, Unstarted]
    omega
  case dereferenceProcess =>
    split at h
    · cases h
    · obtain ⟨hpos, rfl⟩ := dereferenceProcess_eq h
      constructor <;> simp_all [held, threadReference, Unstarted]
      omega
  case dispatch | pspUserThreadStart =>
    split at h
    · cases h
      constructor <;> simp_all [held, threadReference, Unstarted]
    · cases h
  case pspTerminateThread =>
    split at h
    · obtain ⟨u, hu, h⟩ := bind_eq_some_iff.1 h
      obtain rfl := dereferenceThread_eq hu
      obtain ⟨hpos, rfl⟩ := dereferenceProcess_eq h
      constructor <;> simp_all [held, threadReference, Unstarted]
    · cases h
  case obReferenceObjectByHandle =>
    split at h
    · cases h
      constructor <;> simp_all [held, threadReference, Unstarted]
    · cases h
  case obDereferenceObject =>
    split at h
    · cases h
    · obtain rfl := dereferenceThread_eq h
      constructor <;> simp_all [held, threadReference, Unstarted]
  case osSetSuspendedThread =>
    split at h
    · cases h
    · split at h <;> cases h
      · constructor <;> simp_all [held, threadReference, Unstarted, keReadyThread]
      · exact hs
  case osClose =>
    split at h
    · obtain rfl := dereferenceThread_eq h
      constructor <;> simp_all [held, threadReference, Unstarted]
    · cases h

theorem Sound.reaches {C : ThreadCreation → CreationAction → Prop} (hs : s.Sound)
    (h : Reaches (ThreadCreation.step createSuspended) C s t) : t.Sound :=
  h.invariant hs fun _ _ _ hs _ h => hs.step h

/-! ## Which failures leave something behind -/

/-- A call is doomed by the step that fails to insert the handle or to copy it out. -/
theorem doomed_step_iff (hs : s.Sound) (h : ThreadCreation.step createSuspended s a = some t) :
    t.Doomed ↔ s.Doomed ∨ ¬ s.Benign a := by
  obtain ⟨-, -, he, hla, -, hun, -, -⟩ := hs
  obtain ⟨stage, con, frees, pc, oth, st, er, tc, users, handle⟩ := s
  cases a <;> simp only [ThreadCreation.step] at h
  case turn ok =>
    cases stage <;> simp only [ThreadCreation.turn] at h
    case entered | allocated | referenced | created | readied | inserted =>
      split at h <;> obtain rfl := some.inj h <;>
        simp_all [Doomed, Benign, Unstarted]
    case initialized =>
      split at h <;> obtain rfl := some.inj h <;>
        simp [Doomed, Benign, keReadyThread]
    case closing =>
      split at h
      · obtain rfl := dereferenceThread_eq h
        simp [Doomed, Benign, Unstarted]
      · cases h
        simp [Doomed, Benign, Unstarted]
    case undoing | delivered =>
      obtain rfl := dereferenceThread_eq h
      simp [Doomed, Benign, Unstarted]
    case disposing | releasing =>
      obtain ⟨-, rfl⟩ := dereferenceProcess_eq h
      simp [Doomed, Benign, Unstarted]
    case freeing =>
      cases h
      simp [Doomed, Benign, Unstarted]
    case succeeded | failed => cases h
  case referenceProcess =>
    cases h
    simp [Doomed, Benign, Unstarted]
  case dereferenceProcess =>
    split at h
    · cases h
    · obtain ⟨-, rfl⟩ := dereferenceProcess_eq h
      simp [Doomed, Benign, Unstarted]
  case dispatch | pspUserThreadStart =>
    split at h
    · cases h
      simp_all [Doomed, Benign, Unstarted]
    · cases h
  case pspTerminateThread =>
    split at h
    · obtain ⟨u, hu, h⟩ := bind_eq_some_iff.1 h
      obtain rfl := dereferenceThread_eq hu
      obtain ⟨-, rfl⟩ := dereferenceProcess_eq h
      simp_all [Doomed, Benign, Unstarted]
    · cases h
  case obReferenceObjectByHandle =>
    split at h
    · cases h
      simp [Doomed, Benign, Unstarted]
    · cases h
  case obDereferenceObject =>
    split at h
    · cases h
    · obtain rfl := dereferenceThread_eq h
      simp [Doomed, Benign, Unstarted]
  case osSetSuspendedThread =>
    split at h
    · cases h
    · split at h <;> obtain rfl := some.inj h <;>
        simp_all [Doomed, Benign, Unstarted, keReadyThread]
  case osClose =>
    split at h
    · obtain rfl := dereferenceThread_eq h
      simp [Doomed, Benign, Unstarted]
    · cases h

/-- After a failure without a thread, only the references on the process go on changing. -/
theorem unstarted_step (hs : s.Sound) (hf : s.stage = .failed) (hun : s.Unstarted)
    (h : ThreadCreation.step createSuspended s a = some t) : t.stage = .failed ∧ t.Unstarted := by
  obtain ⟨hu, hh⟩ := hs.unused (.inl hun)
  have hst : s.status = .uninitialized := hun
  cases a <;> simp only [ThreadCreation.step, hst, hu, hh] at h
  case turn ok => simp [ThreadCreation.turn, hf] at h
  case referenceProcess =>
    cases h
    exact ⟨hf, rfl⟩
  case dereferenceProcess =>
    split at h
    · cases h
    · obtain ⟨-, rfl⟩ := dereferenceProcess_eq h
      exact ⟨hf, rfl⟩
  all_goals simp at h

/-- A failed call leaves nothing behind just if there is no thread. -/
theorem Sound.right_iff (hs : s.Sound) (hf : s.stage = .failed) :
    Right createSuspended s ↔ s.Unstarted := by
  constructor
  · intro hrg
    obtain ⟨hrd, -, hcount⟩ := hrg hf s .refl
    have hc := hs.counted
    have hnn : s.threadReference = 0 := by
      simp only [held, hf] at hc
      omega
    have hss := hs.ready
    simp only [Unstarted, threadReference] at *
    cases hst : s.status <;> simp_all
  · intro hu _ t hrc
    have ha : t.Sound ∧ t.stage = .failed ∧ t.Unstarted := by
      refine hrc.invariant (I := fun t => t.Sound ∧ t.stage = .failed ∧ t.Unstarted) ⟨hs, hf, hu⟩ ?_
      rintro t a u ⟨hs, hf, hu⟩ - h
      exact ⟨hs.step h, unstarted_step hs hf hu h⟩
    obtain ⟨hs, hf, hu⟩ := ha
    have hc := hs.counted
    have hss : t.status = .uninitialized := hu
    refine ⟨?_, ?_, ?_⟩
    · simpa [hss] using hs.ready
    · simpa [hf] using hs.freed hu
    · simpa [held, hf, threadReference, hss] using hc

variable {as : List CreationAction}

theorem Doomed.run (hs : s.Sound) (hd : s.Doomed)
    (hrn : runChecked (ThreadCreation.step createSuspended) (fun _ _ => true) as s = some t) :
    t.Doomed := by
  induction as generalizing s with
  | nil =>
    obtain rfl : s = t := some.inj hrn
    exact hd
  | cons a as ih =>
    simp only [runChecked, if_true] at hrn
    obtain ⟨u, hu, hrs⟩ := bind_eq_some_iff.1 hrn
    exact ih (hs.step hu) ((doomed_step_iff hs hu).2 (.inl hd)) hrs

theorem not_doomed_iff (hs : s.Sound) (hd : ¬ s.Doomed)
    (hrn : runChecked (ThreadCreation.step createSuspended) (fun _ _ => true) as s = some t) :
    ¬ t.Doomed ↔ Along (ThreadCreation.step createSuspended) Benign s as := by
  induction as generalizing s with
  | nil =>
    obtain rfl : s = t := some.inj hrn
    exact iff_of_true hd trivial
  | cons a as ih =>
    simp only [runChecked, if_true] at hrn
    obtain ⟨u, hu, hrs⟩ := bind_eq_some_iff.1 hrn
    have hdm := doomed_step_iff hs hu
    rw [along_cons hu]
    by_cases hb : s.Benign a
    · have hun : ¬ u.Doomed := fun h => (hdm.1 h).elim hd (· hb)
      rw [ih (hs.step hu) hun hrs]
      exact (and_iff_right hb).symm
    · have ht : t.Doomed := (hdm.2 (.inr hb)).run (hs.step hu) hrs
      exact iff_of_false (not_not_intro ht) fun h => hb h.1

/-- **A call that fails leaves no thread that was or will be ready, frees its start context once and
leaves the references on the process as they were just if the handle was not what failed.** -/
theorem failed_right_iff (service : CreationService) (createSuspended : Bool) (n : Nat)
    (as : List CreationAction) (t : ThreadCreation)
    (hrun : runChecked (ThreadCreation.step createSuspended) (fun _ _ => true) as
      (start service n) = some t) (hf : t.stage = .failed) :
    Right createSuspended t ↔
      Along (ThreadCreation.step createSuspended) Benign (start service n) as := by
  have hs := start_sound service n
  have ht : t.Sound := hs.reaches (.of_runChecked (C := AnyStep) (fun _ _ _ => trivial) hrun)
  have hst : ¬ (start service n).Doomed := fun h => h.1 rfl
  rw [ht.right_iff hf, ← not_doomed_iff hs hst hrun]
  simp [Doomed, hf]

/-- There is no memory for the thread object. -/
theorem failed_right_without_memory :
    Right false ⟨.failed, 1, 1, 1, 1, .uninitialized, false, 0, 0, false⟩ :=
  (failed_right_iff .osCreateThread false 1
    [.turn true, .turn true, .turn false, .turn true, .turn true] _ rfl rfl).2 (by decide)

/-- A thread that is started before its handle is inserted frees its context, and the call frees it
again when there is no room for the handle. -/
theorem context_freed_twice :
    ¬ ∀ (service : CreationService) (createSuspended : Bool) (n : Nat) (as : List CreationAction)
      (t : ThreadCreation), runChecked (ThreadCreation.step createSuspended) (fun _ _ => true) as
        (start service n) = some t → t.stage = .failed → Right createSuspended t := by
  intro h
  have hrg := h .osCreateThread false 1
    [.turn true, .turn true, .turn true, .turn true, .turn true, .dispatch, .pspUserThreadStart,
      .turn false, .turn true, .turn true, .turn true] _ rfl rfl
  have hfr : (2 : Nat) = 1 := (hrg rfl _ .refl).2.1
  exact absurd hfr (by decide)

end ThreadCreation

end Boron.Ps
