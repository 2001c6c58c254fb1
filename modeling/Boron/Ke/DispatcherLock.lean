import Boron.Lib.Run
import Boron.Ke.Dispatch

/-! # The dispatcher lock

The services of the dispatcher once more, now with the lock they take, the wait timers and their
DPCs, the kernel APC queues, and the thread switches. A switch happens with the lock held: the
thread that is switched to comes out of its own switch, in a wait, at the end of its quantum or at
its start, and releases the lock that another thread took.

One action is one stretch of code under the lock: from `KiLockDispatcher` to the `KiUnlockDispatcher`
that ends it, on whatever thread. Between two actions every processor is outside the lock, so what
the actions reach are all the interleavings. `none` is a lock that is never obtained, a crash, or an
action that is not possible. -/

namespace Boron.Ke

open Function Option

variable {T O : Type}

/-- What a thread returns to inside the dispatcher. -/
inductive Frame (T O : Type)
  /-- Never run so far: `KiThreadEntryPoint`. -/
  | entryPoint
  /-- Switched out in `KiHandleQuantumEnd`. -/
  | quantumEnd
  /-- Switched out in `KeWaitForMultipleObjects`. -/
  | waiting (call : WaitCall T O)
  /-- In `KeWaitForMultipleObjects`, woken by a kernel APC and about to lock again. -/
  | retrying (call : WaitCall T O)
  /-- In an APC routine called by `KiDispatchApcQueue`, with its `WasWaiting`. -/
  | apc (wasWaiting : Bool)

/-- The dispatcher with its lock. `waitTimer` is the `IsEnqueued` of each thread's wait timer,
`dpcQueue` the threads whose wait DPC is queued; an APC is `true` if it is a special one. -/
structure LockSystem (T O : Type) where
  dispatcher : Dispatcher T O
  locked : Bool
  didCallWaitFunction : T → Bool
  waitTimer : T → Bool
  dpcQueue : List T
  apcQueue : T → List Bool
  apcDisableCount : T → Nat
  apcInProgress : T → Nat
  frames : T → List (Frame T O)

/-- The services that signal an object, each with its `Wait` variant. -/
inductive Signal (T O : Type)
  | setEvent (o : Handle T O)
  | resetEvent (o : Handle T O)
  | pulseEvent (o : Handle T O)
  | releaseMutex (o : Handle T O)
  | releaseSemaphore (o : Handle T O) (adjustment : Nat)

/-- A stretch of code under the dispatcher lock. `next` is the thread that the scheduler picks if
the stretch ends in a switch. -/
inductive LockAction (T O : Type)
  | signal (t : T) (signal : Signal T O)
  | wait (t : T) (call : WaitCall T O) (next : T)
  | signalWait (t : T) (signal : Signal T O) (call : WaitCall T O) (next : T)
  | retryWait (t : T) (next : T)
  | quantumEnd (t : T) (next : T)
  | dispatchTimers (expired : List (T ⊕ Handle T O))
  | runWaitDpc (t : T)
  | queueUserApc (t : T)
  | queueKernelApc (t : T) (special : Bool)
  | requestTermination (t : T)
  | terminate (t : T) (next : T)
  | dispatchApcs (t : T)
  | apcReturn (t : T)

variable [DecidableEq T] [DecidableEq O]

/-- The body of a signal, by thread `t`. -/
def Signal.run (t : T) (d : Dispatcher T O) : Signal T O → Option (Dispatcher T O)
  | .setEvent o => d.keSetEvent o
  | .resetEvent o => some (d.keResetEvent o)
  | .pulseEvent o => d.kePulseEvent o
  | .releaseMutex o => d.keReleaseMutex t o
  | .releaseSemaphore o adjustment => d.keReleaseSemaphore o adjustment

namespace LockSystem

/-- `KiLockDispatcher`; on a lock that is taken it spins. -/
def kiLockDispatcher (s : LockSystem T O) : Option (LockSystem T O) :=
  if s.locked then none else some { s with locked := true }

def kiUnlockDispatcher (s : LockSystem T O) : Option (LockSystem T O) :=
  if s.locked then some { s with locked := false } else none

def kiLockDispatcherWait (s : LockSystem T O) (t : T) : Option (LockSystem T O) :=
  s.kiLockDispatcher.map fun s =>
    { s with didCallWaitFunction := update s.didCallWaitFunction t true }

def setFrames (s : LockSystem T O) (t : T) (frames : List (Frame T O)) : LockSystem T O :=
  { s with frames := update s.frames t frames }

/-- Run a service of the dispatcher. `KiUnwaitThread` cancels the wait timer of the thread that it
wakes. -/
def onDispatcher (s : LockSystem T O) (service : Dispatcher T O → Option (Dispatcher T O)) :
    Option (LockSystem T O) :=
  (service s.dispatcher).map fun d =>
    { s with
      dispatcher := d
      waitTimer := fun t => s.waitTimer t && decide ((d.thread t).status = .waiting) }

/-- A service that takes the lock, does its work and releases it. -/
def underLock (s : LockSystem T O) (service : Dispatcher T O → Option (Dispatcher T O)) :
    Option (LockSystem T O) :=
  (s.kiLockDispatcher.bind (·.onDispatcher service)).bind kiUnlockDispatcher

/-! ## Switching -/

/-- The switched-to thread, up to the release of the lock. -/
def resume (s : LockSystem T O) (t : T) : Option (LockSystem T O) :=
  match s.frames t with
  | .entryPoint :: rest => (s.setFrames t rest).kiUnlockDispatcher
  | .quantumEnd :: rest => (s.setFrames t rest).kiUnlockDispatcher
  | .waiting call :: rest =>
    if (s.dispatcher.thread t).waitStatus = .kernelApc then
      (s.setFrames t (.retrying call :: rest)).kiUnlockDispatcher
    else (s.setFrames t rest).kiUnlockDispatcher
  | _ => none

/-- `KiHandleQuantumEndDispatcherLockHeld`, which switches to `next`. -/
def kiHandleQuantumEndDispatcherLockHeld (s : LockSystem T O) (next : T) :
    Option (LockSystem T O) :=
  if (s.dispatcher.thread next).status = .ready then
    resume { s with waitTimer := update s.waitTimer next false } next
  else none

/-- A round of the loop of `KeWaitForMultipleObjects`, with the lock held. A thread must not
initialize its wait DPC while it is queued: that breaks the queue. -/
def waitRound (s : LockSystem T O) (t : T) (call : WaitCall T O) (next : T) :
    Option (LockSystem T O) :=
  match s.dispatcher.keWaitForMultipleObjects t call with
  | none => none
  | some (d, some _) => kiUnlockDispatcher { s with dispatcher := d }
  | some (d, none) =>
    let s := LockSystem.setFrames { s with dispatcher := d } t (.waiting call :: s.frames t)
    if call.timeout = none then s.kiHandleQuantumEndDispatcherLockHeld next
    else if t ∈ s.dpcQueue then none
    else
      kiHandleQuantumEndDispatcherLockHeld
        { s with waitTimer := update s.waitTimer t true } next

def keWaitForMultipleObjects (s : LockSystem T O) (t : T) (call : WaitCall T O) (next : T) :
    Option (LockSystem T O) :=
  if s.didCallWaitFunction t then
    waitRound { s with didCallWaitFunction := update s.didCallWaitFunction t false } t
      call next
  else s.kiLockDispatcher.bind (·.waitRound t call next)

/-! ## Timers, DPCs and APCs -/

/-- The loop of `KiDispatchTimerObjects`, over the timers that have expired. -/
def kiDispatchTimerObjects (s : LockSystem T O) :
    List (T ⊕ Handle T O) → Option (LockSystem T O)
  | [] => some s
  | .inl t :: rest =>
    if s.waitTimer t then
      let queue := if t ∈ s.dpcQueue then s.dpcQueue else t :: s.dpcQueue
      kiDispatchTimerObjects
        { s with dpcQueue := queue, waitTimer := update s.waitTimer t false } rest
    else none
  | .inr o :: rest =>
    (s.onDispatcher (·.kiDispatchTimerObject o)).bind (·.kiDispatchTimerObjects rest)

def kiDispatchTimerQueue (s : LockSystem T O) (expired : List (T ⊕ Handle T O)) :
    Option (LockSystem T O) :=
  (s.kiLockDispatcher.bind (·.kiDispatchTimerObjects expired)).bind kiUnlockDispatcher

def kepWaitTimerExpiry (s : LockSystem T O) (t : T) : Option (LockSystem T O) :=
  s.kiLockDispatcher.bind fun s =>
    if (s.dispatcher.thread t).status = .waiting then
      (s.onDispatcher fun d => some (d.kiUnwaitThread t .timeout)).bind kiUnlockDispatcher
    else some s

/-- `KeInsertQueueApc`, for a kernel APC. -/
def keInsertKernelApc (s : LockSystem T O) (t : T) (special : Bool) : Option (LockSystem T O) :=
  s.kiLockDispatcher.bind fun s =>
    let queue := if special then special :: s.apcQueue t else s.apcQueue t ++ [special]
    let deliverable := special || (s.apcDisableCount t = 0 && s.apcInProgress t = 0)
    (onDispatcher { s with apcQueue := update s.apcQueue t queue }
      fun d => some (d.keInsertKernelApc t deliverable)).bind kiUnlockDispatcher

/-- The end of `KiDispatchApcQueue`. -/
def apcsDone (s : LockSystem T O) (t : T) (wasWaiting : Bool) : Option (LockSystem T O) :=
  if wasWaiting then
    let thread := s.dispatcher.thread t
    kiUnlockDispatcher
      { s with dispatcher := s.dispatcher.setThread t { thread with waitStatus := .kernelApc } }
  else s.kiUnlockDispatcher

/-- The loop of `KiDispatchApcQueue`, up to the call of the next APC's routine or to the end. -/
def nextApc (s : LockSystem T O) (t : T) (wasWaiting : Bool) : Option (LockSystem T O) :=
  match s.apcQueue t with
  | [] => s.apcsDone t wasWaiting
  | special :: rest =>
    if special || (s.apcInProgress t = 0 && s.apcDisableCount t = 0) then
      kiUnlockDispatcher
        { s.setFrames t (.apc wasWaiting :: s.frames t) with
          apcQueue := update s.apcQueue t rest
          apcInProgress := update s.apcInProgress t (s.apcInProgress t + 1) }
    else s.apcsDone t wasWaiting

/-- `KiDispatchApcQueue`, up to the first routine. -/
def kiDispatchApcQueue (s : LockSystem T O) (t : T) : Option (LockSystem T O) :=
  s.kiLockDispatcher.bind fun s =>
    s.nextApc t ((s.dispatcher.thread t).waitStatus = .kernelApc)

/-- `KiDispatchApcQueue`, from the return of a routine. -/
def afterApc (s : LockSystem T O) (t : T) (wasWaiting : Bool) : Option (LockSystem T O) :=
  s.kiLockDispatcher.bind fun s =>
    nextApc { s with apcInProgress := update s.apcInProgress t (s.apcInProgress t - 1) } t
      wasWaiting

/-! ## Actions -/

/-- The thread runs code outside the dispatcher, perhaps in an APC routine. -/
def atLarge (s : LockSystem T O) (t : T) : Bool :=
  (s.dispatcher.thread t).status = .ready &&
    match s.frames t with
    | [] => true
    | .apc _ :: _ => true
    | _ => false

/-- The thread can be interrupted by an APC. -/
def interruptible (s : LockSystem T O) (t : T) : Bool :=
  s.atLarge t ||
    match s.frames t with
    | .retrying _ :: _ => true
    | _ => false

def step (s : LockSystem T O) : LockAction T O → Option (LockSystem T O)
  | .signal t signal => if s.atLarge t then s.underLock (signal.run t) else none
  | .wait t call next => if s.atLarge t then s.keWaitForMultipleObjects t call next else none
  | .signalWait t signal call next =>
    if s.atLarge t then
      ((s.kiLockDispatcherWait t).bind (·.onDispatcher (signal.run t))).bind
        (·.keWaitForMultipleObjects t call next)
    else none
  | .retryWait t next =>
    match s.frames t with
    | .retrying call :: rest =>
      (s.setFrames t rest).kiLockDispatcher.bind (·.waitRound t call next)
    | _ => none
  | .quantumEnd t next =>
    if s.interruptible t then
      s.kiLockDispatcher.bind fun s =>
        (s.setFrames t (.quantumEnd :: s.frames t)).kiHandleQuantumEndDispatcherLockHeld next
    else none
  | .dispatchTimers expired => s.kiDispatchTimerQueue expired
  | .runWaitDpc t =>
    if t ∈ s.dpcQueue then kepWaitTimerExpiry { s with dpcQueue := s.dpcQueue.erase t } t
    else none
  | .queueUserApc t => s.underLock fun d => some (d.keInsertUserApc t)
  | .queueKernelApc t special => s.keInsertKernelApc t special
  | .requestTermination t => s.underLock fun d => some (d.kiTerminateThread t)
  | .terminate t next =>
    if s.atLarge t then
      s.kiLockDispatcher.bind fun s =>
        kiHandleQuantumEndDispatcherLockHeld
          { s with dispatcher := s.dispatcher.keTerminateThread t } next
    else none
  | .dispatchApcs t => if s.interruptible t then s.kiDispatchApcQueue t else none
  | .apcReturn t =>
    match s.frames t with
    | .apc wasWaiting :: rest => (s.setFrames t rest).afterApc t wasWaiting
    | _ => none

/-! ## Every way out releases the lock -/

variable {s s' : LockSystem T O}

omit [DecidableEq T] [DecidableEq O] in
theorem unlocked_of_unlock (h : s.kiUnlockDispatcher = some s') : s'.locked = false := by
  rw [kiUnlockDispatcher] at h
  split at h
  · cases h
    rfl
  · cases h

omit [DecidableEq T] [DecidableEq O] in
theorem unlocked_of_bind_unlock {x : Option (LockSystem T O)}
    (h : x.bind kiUnlockDispatcher = some s') : s'.locked = false := by
  obtain ⟨u, -, hu⟩ := bind_eq_some_iff.1 h
  exact unlocked_of_unlock hu

omit [DecidableEq O] in
/-- After a switch it is the other thread that releases the lock. -/
theorem unlocked_of_resume {t : T} (h : s.resume t = some s') : s'.locked = false := by
  rw [resume] at h
  split at h
  · exact unlocked_of_unlock h
  · exact unlocked_of_unlock h
  · split at h
    · exact unlocked_of_unlock h
    · exact unlocked_of_unlock h
  · cases h

omit [DecidableEq O] in
theorem unlocked_of_switch {next : T}
    (h : s.kiHandleQuantumEndDispatcherLockHeld next = some s') : s'.locked = false := by
  rw [kiHandleQuantumEndDispatcherLockHeld] at h
  split at h
  · exact unlocked_of_resume h
  · cases h

theorem unlocked_of_waitRound {t next : T} {call : WaitCall T O}
    (h : s.waitRound t call next = some s') : s'.locked = false := by
  rw [waitRound] at h
  split at h
  · cases h
  · exact unlocked_of_unlock h
  · dsimp only at h
    split at h
    · exact unlocked_of_switch h
    · split at h
      · cases h
      · exact unlocked_of_switch h

theorem unlocked_of_wait {t next : T} {call : WaitCall T O}
    (h : s.keWaitForMultipleObjects t call next = some s') : s'.locked = false := by
  rw [keWaitForMultipleObjects] at h
  split at h
  · exact unlocked_of_waitRound h
  · obtain ⟨u, -, hu⟩ := bind_eq_some_iff.1 h
    exact unlocked_of_waitRound hu

omit [DecidableEq O] in
theorem unlocked_of_nextApc {t : T} {ww : Bool} (h : s.nextApc t ww = some s') : s'.locked = false := by
  have hdn : s.apcsDone t ww = some s' → s'.locked = false := by
    intro h
    rw [apcsDone] at h
    split at h
    · exact unlocked_of_unlock h
    · exact unlocked_of_unlock h
  rw [nextApc] at h
  split at h
  · exact hdn h
  · split at h
    · exact unlocked_of_unlock h
    · exact hdn h

/-- The action runs a wait timer's DPC whose thread does not wait any more. -/
def LateDpc (s : LockSystem T O) : LockAction T O → Prop
  | .runWaitDpc t => (s.dispatcher.thread t).status ≠ .waiting
  | _ => False

/-- `KepWaitTimerExpiry` keeps the lock exactly when the thread does not wait any more. -/
theorem locked_of_expiry {t : T} (h : s.kepWaitTimerExpiry t = some s') :
    s'.locked = false ↔ (s.dispatcher.thread t).status = .waiting := by
  obtain ⟨u, hu, h⟩ := bind_eq_some_iff.1 h
  rw [kiLockDispatcher] at hu
  split at hu
  · cases hu
  · cases hu
    split at h
    · next hw => exact ⟨fun _ => hw, fun _ => unlocked_of_bind_unlock h⟩
    · next hnt =>
        cases h
        exact ⟨fun hc => Bool.noConfusion hc, fun hw => absurd hw hnt⟩

/-- **One stretch of code.** It ends with the lock released, unless it is a late DPC. -/
theorem step_unlocks {a : LockAction T O} (h : s.step a = some s') :
    s'.locked = false ↔ ¬ s.LateDpc a := by
  have hok : s'.locked = false → (s'.locked = false ↔ ¬ False) :=
    fun h => ⟨fun _ => not_false, fun _ => h⟩
  cases a with
  | signal t signal =>
    simp only [step] at h
    split at h
    · exact hok (unlocked_of_bind_unlock h)
    · cases h
  | wait t call next =>
    simp only [step] at h
    split at h
    · exact hok (unlocked_of_wait h)
    · cases h
  | signalWait t signal call next =>
    simp only [step] at h
    split at h
    · obtain ⟨u, -, hu⟩ := bind_eq_some_iff.1 h
      exact hok (unlocked_of_wait hu)
    · cases h
  | retryWait t next =>
    simp only [step] at h
    split at h
    · obtain ⟨u, -, hu⟩ := bind_eq_some_iff.1 h
      exact hok (unlocked_of_waitRound hu)
    · cases h
  | quantumEnd t next =>
    simp only [step] at h
    split at h
    · obtain ⟨u, -, hu⟩ := bind_eq_some_iff.1 h
      exact hok (unlocked_of_switch hu)
    · cases h
  | dispatchTimers expired => exact hok (unlocked_of_bind_unlock h)
  | runWaitDpc t =>
    simp only [step] at h
    split at h
    · exact (locked_of_expiry h).trans not_not.symm
    · cases h
  | queueUserApc t => exact hok (unlocked_of_bind_unlock h)
  | queueKernelApc t special =>
    obtain ⟨u, -, hu⟩ := bind_eq_some_iff.1 h
    exact hok (unlocked_of_bind_unlock hu)
  | requestTermination t => exact hok (unlocked_of_bind_unlock h)
  | terminate t next =>
    simp only [step] at h
    split at h
    · obtain ⟨u, -, hu⟩ := bind_eq_some_iff.1 h
      exact hok (unlocked_of_switch hu)
    · cases h
  | dispatchApcs t =>
    simp only [step] at h
    split at h
    · obtain ⟨u, -, hu⟩ := bind_eq_some_iff.1 h
      exact hok (unlocked_of_nextApc hu)
    · cases h
  | apcReturn t =>
    simp only [step] at h
    split at h
    · obtain ⟨u, -, hu⟩ := bind_eq_some_iff.1 h
      exact hok (unlocked_of_nextApc hu)
    · cases h

/-- **The dispatcher lock is balanced** in every interleaving in which no wait timer's DPC runs
after its thread was woken by another cause: whenever all the code under the lock has returned, the
lock is free; and such a late DPC is the only action that can leave it taken. -/
theorem dispatcherLock_balanced {s₀ : LockSystem T O} (hs : s₀.locked = false)
    (hrun : Reaches step (fun s a => ¬ s.LateDpc a) s₀ s) :
    s.locked = false ∧ ∀ a s', s.step a = some s' → (s'.locked = false ↔ ¬ s.LateDpc a) :=
  ⟨hrun.invariant (I := fun s => s.locked = false) hs fun _ _ _ _ hC hst =>
    (step_unlocks hst).2 hC, fun _ _ => step_unlocks⟩

/-- **A lock that is left taken stops everything**: no action is possible any more. -/
theorem step_of_locked (hlk : s.locked = true) (hcl : ∀ t, s.didCallWaitFunction t = false)
    (a : LockAction T O) : s.step a = none := by
  have hc : ∀ u : LockSystem T O, u.locked = true → u.kiLockDispatcher = none := by
    intro u hu
    rw [kiLockDispatcher, if_pos hu]
  have hsr : ∀ service, s.underLock service = none := by
    intro service
    rw [underLock, hc s hlk]
    rfl
  cases a with
  | signal t signal => simp only [step, hsr, ite_self]
  | wait t call next =>
    simp only [step, keWaitForMultipleObjects, hcl, Bool.false_eq_true, if_false,
      hc s hlk, bind_none, ite_self]
  | signalWait t signal call next =>
    simp only [step, kiLockDispatcherWait, hc s hlk, map_none, bind_none, ite_self]
  | retryWait t next =>
    simp only [step]
    split
    · next rest _ => rw [hc (s.setFrames t rest) hlk, bind_none]
    · rfl
  | quantumEnd t next => simp only [step, hc s hlk, bind_none, ite_self]
  | dispatchTimers expired =>
    simp only [step, kiDispatchTimerQueue, hc s hlk, bind_none]
  | runWaitDpc t =>
    simp only [step, kepWaitTimerExpiry,
      hc { s with dpcQueue := s.dpcQueue.erase t } hlk, bind_none, ite_self]
  | queueUserApc t => exact hsr _
  | queueKernelApc t special =>
    simp only [step, keInsertKernelApc, hc s hlk, bind_none]
  | requestTermination t => exact hsr _
  | terminate t next => simp only [step, hc s hlk, bind_none, ite_self]
  | dispatchApcs t =>
    simp only [step, kiDispatchApcQueue, hc s hlk, bind_none, ite_self]
  | apcReturn t =>
    simp only [step]
    split
    · next rest _ => rw [afterApc, hc (s.setFrames t rest) hlk, bind_none]
    · rfl

/-! ## A wait that times out and is satisfied at once -/

/-- Two threads and a synchronization event. The thread `true` has not run so far. -/
def sample : LockSystem Bool Unit where
  dispatcher :=
    { header := fun
        | .thread _ => ⟨.thread, 0, none, []⟩
        | .object _ => ⟨.synchronizationEvent, 0, none, []⟩
      thread := fun _ => ⟨.ready, [], .any, false, .kernel, .success, false⟩
      mutexList := fun _ => []
      grants := [] }
  locked := false
  didCallWaitFunction := fun _ => false
  waitTimer := fun _ => false
  dpcQueue := []
  apcQueue := fun _ => []
  apcDisableCount := fun _ => 0
  apcInProgress := fun _ => 0
  frames := fun
    | true => [.entryPoint]
    | false => []

/-- The wait of the thread `false` for the event, with a timeout, and the expiry of its timer. -/
def sampleTimeout : List (LockAction Bool Unit) :=
  [.wait false ⟨[.object ()], .any, false, some 5, false, .kernel⟩ true, .dispatchTimers [.inl false]]

/-- The timer expires, the event is set before its DPC runs, and the DPC leaves the lock taken: no
thread gets it again. -/
theorem late_dpc_keeps_lock : ∃ s : LockSystem Bool Unit, Reaches step (fun _ _ => True) sample s ∧
      s.locked = true ∧ ∀ a, s.step a = none := by
  obtain ⟨s, hrn, hs⟩ := (any_eq_true
    (fun s : LockSystem Bool Unit => s.locked && !s.didCallWaitFunction false &&
      !s.didCallWaitFunction true)
    (runChecked step (fun _ _ => true)
      (sampleTimeout ++ [LockAction.signal true (.setEvent (.object ())), LockAction.runWaitDpc false]) sample)).1
    (by decide +kernel)
  simp only [Bool.and_eq_true, Bool.not_eq_true'] at hs
  obtain ⟨⟨hlk, hff⟩, htt⟩ := hs
  exact ⟨s, Reaches.of_runChecked (fun _ _ _ => trivial) hrn, hlk,
    step_of_locked hlk (Bool.forall_bool.2 ⟨hff, htt⟩)⟩

/-- The DPC in time wakes the thread with the timeout and releases the lock. -/
theorem dispatcherLock_balanced_sample :
    ∃ s : LockSystem Bool Unit, Reaches step (fun s a => ¬ s.LateDpc a) sample s ∧
      (s.dispatcher.thread false).waitStatus = .timeout ∧ s.locked = false ∧
      ∀ a s', s.step a = some s' → (s'.locked = false ↔ ¬ s.LateDpc a) := by
  obtain ⟨s, hrn, hs⟩ := (any_eq_true (fun s : LockSystem Bool Unit =>
      decide ((s.dispatcher.thread false).waitStatus = .timeout))
    (runChecked step
      (fun s a => match a with
        | .runWaitDpc t => decide ((s.dispatcher.thread t).status = .waiting)
        | _ => true)
      (sampleTimeout ++ [LockAction.runWaitDpc false]) sample)).1 (by decide +kernel)
  have hc : Reaches step (fun s a => ¬ s.LateDpc a) sample s := by
    refine Reaches.of_runChecked (fun u a hok => ?_) hrn
    cases a with
    | runWaitDpc t => exact not_not.2 (of_decide_eq_true hok)
    | _ => exact not_false
  exact ⟨s, hc, of_decide_eq_true hs, dispatcherLock_balanced rfl hc⟩

end LockSystem

end Boron.Ke
