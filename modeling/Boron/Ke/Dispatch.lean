import Mathlib.Logic.Function.Basic

/-! # The dispatcher (`ke/dispatch.c`, `event.c`, `mutex.c`, `semaphor.c`, `timer.c`, `apc.c`, `sched.c`)

Everything here runs under the dispatcher lock, so each service is one step. The count of a header is
a `short`, so 16 bits that wrap. `none` is a crash of the kernel, or a return that leaves the
dispatcher lock taken for good.

The scheduling queues, priorities and the `DEBUG` checks are left out. The mutex list of a thread is a
list of its mutexes, without the links. `grants` is a history: every wait that was satisfied is
recorded there, and no service looks at it. The services that return with
the dispatcher lock held for a wait that follows (`KeSetEventWait` and the like) are the service and
then the wait. -/

namespace Boron.Ke

open Function

variable {T O : Type}

/-! ## Objects and threads -/

/-- `DISPATCH_*`, with the two types of event. -/
inductive ObjectType
  | synchronizationEvent
  | notificationEvent
  | timer
  | mutex
  | semaphore
  | thread
  | process
  deriving DecidableEq

/-- `KDISPATCH_HEADER`, with the `OwnerThread` of a mutex. The wait block list holds the threads. -/
structure Header (T : Type) where
  type : ObjectType
  signaled : BitVec 16
  ownerThread : Option T
  waiters : List T

/-- A dispatcher object; a thread is one itself. -/
inductive Handle (T O : Type)
  | thread (t : T)
  | object (o : O)
  deriving DecidableEq

inductive WaitType
  | all
  | any
  deriving DecidableEq

inductive WaitMode
  | kernel
  | user
  deriving DecidableEq

inductive ThreadStatus
  | ready
  | waiting
  | terminated
  deriving DecidableEq

/-- The statuses a wait ends with; `range i` is `STATUS_RANGE_WAIT + i`. -/
inductive WaitStatus
  | waiting
  | range (i : Nat)
  | success
  | timeout
  | killed
  | alerted
  | kernelApc
  deriving DecidableEq

/-- What waits use of `KTHREAD`. `waitObjects` are the objects of the wait blocks. -/
structure Thread (T O : Type) where
  status : ThreadStatus
  waitObjects : List (Handle T O)
  waitType : WaitType
  waitIsAlertable : Bool
  waitMode : WaitMode
  waitStatus : WaitStatus
  pendingTermination : Bool

/-- A wait that was satisfied: the objects it was for, those the thread acquired, and those that were
signaled for the thread just before. -/
structure Grant (T O : Type) where
  thread : T
  waitType : WaitType
  objects : List (Handle T O)
  taken : List (Handle T O)
  signaled : List (Handle T O)

structure Dispatcher (T O : Type) where
  header : Handle T O → Header T
  thread : T → Thread T O
  mutexList : T → List (Handle T O)
  grants : List (Grant T O)

/-- The arguments of `KeWaitForMultipleObjects`; a `timeout` of `none` is `TIMEOUT_INFINITE`. -/
structure WaitCall (T O : Type) where
  objects : List (Handle T O)
  waitType : WaitType
  alertable : Bool
  timeout : Option Nat
  ownBlocks : Bool
  waitMode : WaitMode

def maximumWaitBlocks : Nat := 64

def threadWaitBlocks : Nat := 4

/-- How many objects a call may name, with wait blocks of its own or with those of the thread. -/
def WaitCall.maximum (call : WaitCall T O) : Nat :=
  if call.ownBlocks then maximumWaitBlocks else threadWaitBlocks

variable [DecidableEq T] [DecidableEq O]

namespace Header

def kiIsObjectSignaled (h : Header T) (t : T) : Bool :=
  match h.type with
  | .mutex => h.signaled = 0 || h.ownerThread = some t
  | _ => h.signaled ≠ 0

def kiAcquireObject (h : Header T) (t : T) : Option (Header T) :=
  match h.type with
  | .semaphore => some { h with signaled := h.signaled - 1 }
  | .mutex =>
    if h.ownerThread ≠ none ∧ h.ownerThread ≠ some t then none
    else some { h with signaled := h.signaled + 1, ownerThread := some t }
  | .synchronizationEvent => some { h with signaled := 0 }
  | _ => some h

def kepSatisfiedEnough (h : Header T) (satisfiedCount : Nat) : Bool :=
  match h.type with
  | .mutex => h.signaled ≠ 0
  | .semaphore => h.signaled = 0
  | .synchronizationEvent => satisfiedCount = 1
  | _ => false

end Header

namespace Dispatcher

/-! ## Waiting and waking -/

def setHeader (d : Dispatcher T O) (o : Handle T O) (h : Header T) : Dispatcher T O :=
  { d with header := update d.header o h }

def setThread (d : Dispatcher T O) (t : T) (thread : Thread T O) : Dispatcher T O :=
  { d with thread := update d.thread t thread }

def setMutexList (d : Dispatcher T O) (t : T) (mutexes : List (Handle T O)) : Dispatcher T O :=
  { d with mutexList := update d.mutexList t mutexes }

/-- `KiAcquireObject` on an object of the dispatcher. -/
def acquire (d : Dispatcher T O) (t : T) (o : Handle T O) : Option (Dispatcher T O) :=
  ((d.header o).kiAcquireObject t).map fun h =>
    if h.type = .mutex ∧ (d.header o).signaled = 0 then
      (d.setHeader o h).setMutexList t (o :: d.mutexList t)
    else d.setHeader o h

def acquireAll (d : Dispatcher T O) (t : T) : List (Handle T O) → Option (Dispatcher T O)
  | [] => some d
  | o :: os => (d.acquire t o).bind fun d => d.acquireAll t os

def isSignaled (d : Dispatcher T O) (o : Handle T O) (t : T) : Bool :=
  (d.header o).kiIsObjectSignaled t

/-- Record in `d'` that a wait of `t` was satisfied in `d`. -/
def record (d d' : Dispatcher T O) (t : T) (waitType : WaitType) (objects taken : List (Handle T O)) :
    Dispatcher T O :=
  { d' with
    grants := d'.grants ++ [⟨t, waitType, objects, taken, objects.filter (d.isSignaled · t)⟩] }

/-- Remove a thread's wait blocks from the lists of their objects. -/
def removeBlocks (d : Dispatcher T O) (t : T) : Dispatcher T O :=
  { d with header := fun o =>
      if o ∈ (d.thread t).waitObjects then
        { d.header o with waiters := (d.header o).waiters.erase t }
      else d.header o }

def kiUnwaitThread (d : Dispatcher T O) (t : T) (status : WaitStatus) : Dispatcher T O :=
  (d.removeBlocks t).setThread t
    { d.thread t with status := .ready, waitObjects := [], waitStatus := status }

/-- `KiSatisfyWaitBlock`, for the wait block of `t` on `o`. -/
def kiSatisfyWaitBlock (d : Dispatcher T O) (t : T) (o : Handle T O) :
    Option (Dispatcher T O × Bool) :=
  let objects := (d.thread t).waitObjects
  match (d.thread t).waitType with
  | .any =>
    (d.acquire t o).map fun d' =>
      ((d.record d' t .any objects [o]).kiUnwaitThread t (.range (objects.idxOf o)), true)
  | .all =>
    if objects.all (d.isSignaled · t) then
      (d.acquireAll t objects).map fun d' =>
        ((d.record d' t .all objects objects).kiUnwaitThread t .success, true)
    else some (d, false)

/-- The loop of `KiWaitTestAndGetWaiter`, over the part of the wait block list that is left. -/
def waitTestLoop (d : Dispatcher T O) (o : Handle T O) (satisfiedCount : Nat) (result : Option T) :
    List T → Option (Dispatcher T O × Option T)
  | [] => some (d, result)
  | t :: ts =>
    (d.kiSatisfyWaitBlock t o).bind fun r =>
      if r.2 then
        if (r.1.header o).kepSatisfiedEnough (satisfiedCount + 1) then some (r.1, some t)
        else r.1.waitTestLoop o (satisfiedCount + 1) (some t) ts
      else r.1.waitTestLoop o satisfiedCount result ts

def kiWaitTestAndGetWaiter (d : Dispatcher T O) (o : Handle T O) :
    Option (Dispatcher T O × Option T) :=
  d.waitTestLoop o 0 none (d.header o).waiters

def kiWaitTest (d : Dispatcher T O) (o : Handle T O) : Option (Dispatcher T O) :=
  (d.kiWaitTestAndGetWaiter o).map Prod.fst

/-- The first object a `WAIT_TYPE_ANY` call finds signaled, with its index. -/
def firstSignaled (d : Dispatcher T O) (t : T) (objects : List (Handle T O)) :
    Option (Nat × Handle T O) :=
  (objects.zipIdx.find? fun p => d.isSignaled p.1 t).map fun p => (p.2, p.1)

/-- Is the wait over before it begins? If so, the objects it acquires and its status. -/
def satisfiedNow (d : Dispatcher T O) (t : T) (call : WaitCall T O) :
    Option (List (Handle T O) × WaitStatus) :=
  match call.waitType with
  | .any =>
    if call.objects = [] then some ([], .range 0)
    else (d.firstSignaled t call.objects).map fun p => ([p.2], .range p.1)
  | .all =>
    if call.objects.all (d.isSignaled · t) then some (call.objects, .success) else none

/-- Insert a wait block for each object and go to sleep. -/
def block (d : Dispatcher T O) (t : T) (call : WaitCall T O) : Dispatcher T O :=
  { d with
    header := fun o =>
      if o ∈ call.objects then { d.header o with waiters := (d.header o).waiters ++ [t] }
      else d.header o
    thread := update d.thread t
      { d.thread t with
        status := .waiting
        waitObjects := call.objects
        waitType := call.waitType
        waitIsAlertable := call.alertable
        waitMode := call.waitMode
        waitStatus := .waiting } }

/-- `KeWaitForMultipleObjects`: one round of its loop. The round after a kernel APC is another step of
    the thread, with the same arguments. A thread that sleeps has no status yet. -/
def keWaitForMultipleObjects (d : Dispatcher T O) (t : T) (call : WaitCall T O) :
    Option (Dispatcher T O × Option WaitStatus) :=
  if call.maximum < call.objects.length then none
  else if call.waitMode = .user ∧ (d.thread t).pendingTermination then some (d, some .killed)
  else
    match d.satisfiedNow t call with
    | some (taken, status) =>
      (d.acquireAll t taken).map fun d' =>
        (d.record d' t call.waitType call.objects taken, some status)
    | none =>
      if call.timeout = some 0 then some (d, some .timeout)
      else some (d.block t call, none)

/-! ## Signaling -/

def setSignaled (d : Dispatcher T O) (o : Handle T O) (n : BitVec 16) : Dispatcher T O :=
  d.setHeader o { d.header o with signaled := n }

/-- Signal an object that has no count: an event, a timer, a thread or a process. -/
def signal (d : Dispatcher T O) (o : Handle T O) : Option (Dispatcher T O) :=
  (d.setSignaled o 1).kiWaitTest o

def keSetEvent (d : Dispatcher T O) (o : Handle T O) : Option (Dispatcher T O) := d.signal o

def keResetEvent (d : Dispatcher T O) (o : Handle T O) : Dispatcher T O := d.setSignaled o 0

def kePulseEvent (d : Dispatcher T O) (o : Handle T O) : Option (Dispatcher T O) :=
  (d.signal o).map (·.keResetEvent o)

/-- `KeReleaseMutex`, by thread `t`. -/
def keReleaseMutex (d : Dispatcher T O) (t : T) (o : Handle T O) : Option (Dispatcher T O) :=
  let h := d.header o
  if h.ownerThread ≠ some t then none
  else
    let count := h.signaled - 1
    if count.toInt < 0 then none
    else if count = 0 then
      ((d.setMutexList t ((d.mutexList t).erase o)).setHeader o
        { h with signaled := 0, ownerThread := none }).kiWaitTest o
    else some (d.setSignaled o count)

def keReleaseSemaphore (d : Dispatcher T O) (o : Handle T O) (adjustment : Nat) :
    Option (Dispatcher T O) :=
  let count := (d.header o).signaled + BitVec.ofNat 16 adjustment
  if count.toInt < 0 then none
  else (d.setSignaled o count).kiWaitTest o

/-- `KiDispatchTimerObjects`, for one timer. -/
def kiDispatchTimerObject (d : Dispatcher T O) (o : Handle T O) : Option (Dispatcher T O) := d.signal o

/-- `KepWaitTimerExpiry`; it keeps the dispatcher lock if the thread does not wait any more. -/
def kepWaitTimerExpiry (d : Dispatcher T O) (t : T) : Option (Dispatcher T O) :=
  if (d.thread t).status = .waiting then some (d.kiUnwaitThread t .timeout) else none

/-- `KeInsertQueueApc`, for a user APC. -/
def keInsertUserApc (d : Dispatcher T O) (t : T) : Dispatcher T O :=
  let thread := d.thread t
  if thread.status = .waiting ∧ thread.waitIsAlertable ∧ thread.waitMode = .user ∧
      thread.waitStatus = .waiting then
    d.kiUnwaitThread t .alerted
  else d

/-- `KeInsertQueueApc`, for a kernel APC; `deliverable` is the test on the routine, on
    `ApcDisableCount` and on `ApcInProgress`. -/
def keInsertKernelApc (d : Dispatcher T O) (t : T) (deliverable : Bool) : Dispatcher T O :=
  if (d.thread t).status = .waiting ∧ deliverable then d.kiUnwaitThread t .kernelApc else d

def kiTerminateThread (d : Dispatcher T O) (t : T) : Dispatcher T O :=
  let thread := d.thread t
  if thread.pendingTermination then d
  else
    let d := d.setThread t { thread with pendingTermination := true }
    if thread.status = .waiting ∧ (thread.waitIsAlertable ∨ thread.waitMode = .user) then
      d.kiUnwaitThread t .killed
    else d

/-- `KeTerminateThread`, by the thread itself. -/
def keTerminateThread (d : Dispatcher T O) (t : T) : Dispatcher T O :=
  d.setThread t { d.thread t with status := .terminated }

/-- `KepCleanUpThread`; `process` is the process that is left without threads, if any, which
    `KiOnKillProcess` signals. -/
def kepCleanUpThread (d : Dispatcher T O) (t : T) (process : Option (Handle T O)) :
    Option (Dispatcher T O) :=
  (d.signal (.thread t)).bind fun d =>
    match process with
    | none => some d
    | some p => d.signal p

/-! ## Steps -/

inductive Action (T O : Type)
  | wait (t : T) (call : WaitCall T O)
  | setEvent (o : Handle T O)
  | resetEvent (o : Handle T O)
  | pulseEvent (o : Handle T O)
  | releaseMutex (t : T) (o : Handle T O)
  | releaseSemaphore (o : Handle T O) (adjustment : Nat)
  | timerExpiry (o : Handle T O)
  | waitTimeout (t : T)
  | userApc (t : T)
  | kernelApc (t : T) (deliverable : Bool)
  | requestTermination (t : T)
  | terminate (t : T)
  | cleanUp (t : T) (process : Option (Handle T O))

def isEvent (d : Dispatcher T O) (o : Handle T O) : Prop :=
  (d.header o).type = .synchronizationEvent ∨ (d.header o).type = .notificationEvent

instance (d : Dispatcher T O) (o : Handle T O) : Decidable (d.isEvent o) :=
  inferInstanceAs (Decidable (_ ∨ _))

/-- The steps. A thread waits for distinct objects and acts only while it is ready; each service gets
    an object of its type. -/
def step (d : Dispatcher T O) : Action T O → Option (Dispatcher T O)
  | .wait t call =>
    if (d.thread t).status = .ready ∧ call.objects.Nodup then
      (d.keWaitForMultipleObjects t call).map Prod.fst
    else none
  | .setEvent o => if d.isEvent o then d.keSetEvent o else none
  | .resetEvent o => if d.isEvent o then some (d.keResetEvent o) else none
  | .pulseEvent o => if d.isEvent o then d.kePulseEvent o else none
  | .releaseMutex t o =>
    if (d.thread t).status = .ready ∧ (d.header o).type = .mutex then d.keReleaseMutex t o else none
  | .releaseSemaphore o adjustment =>
    if (d.header o).type = .semaphore then d.keReleaseSemaphore o adjustment else none
  | .timerExpiry o => if (d.header o).type = .timer then d.kiDispatchTimerObject o else none
  | .waitTimeout t => d.kepWaitTimerExpiry t
  | .userApc t => some (d.keInsertUserApc t)
  | .kernelApc t deliverable => some (d.keInsertKernelApc t deliverable)
  | .requestTermination t => some (d.kiTerminateThread t)
  | .terminate t => if (d.thread t).status = .ready then some (d.keTerminateThread t) else none
  | .cleanUp t process =>
    if (d.thread t).status = .terminated ∧ (d.header (.thread t)).type = .thread ∧
        ∀ p, process = some p → (d.header p).type = .process then
      d.kepCleanUpThread t process
    else none

end Dispatcher

end Boron.Ke
