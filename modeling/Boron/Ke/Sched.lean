import Boron.Lib.Circular

/-! # The scheduler (`ke/sched.c`, `ke/thread.c`)

Every routine here runs with the dispatcher locked, so each service is one step; a switch of threads
is the end of the step of the thread that is switched from. The lists are intrusive: all links of the
ready queues are in `queues`, those of the global thread list in `global`, and an entry that is taken
out of a list keeps the links it had (the release build; with `DEBUG` they are cleared to null, which
`KiSetPriorityThread` crashes on). `none` is a crash of the kernel.

Time, processes, stacks, timers and the waits themselves are left out. -/

namespace Boron.Ke

open Function

/-- `KTHREAD_STATUS_*`. -/
inductive SchedStatus
  | uninitialized
  | initialized
  | ready
  | running
  | waiting
  | terminated
  deriving DecidableEq, Repr

/-- The nodes of the ready queues: `ExecQueue[Priority]` of a processor, `EntryQueue` of a thread. -/
inductive QueueNode (P T : Type)
  | head (p : P) (priority : Nat)
  | entry (t : T)
  deriving DecidableEq

/-- The nodes of the global list: `KiGlobalThreadList`, and `EntryGlobal` of a thread. -/
inductive GlobalNode (T : Type)
  | head
  | entry (t : T)
  deriving DecidableEq

/-- What the scheduler uses of `KTHREAD`. -/
structure SchedThread (P : Type) where
  status : SchedStatus
  suspended : Bool
  priority : Nat
  basePriority : Nat
  priorityBoost : Nat
  lastProcessor : P
  dontSteal : Bool
  affinity : P → Bool

/-- `KSCHEDULER`, without the queues. -/
structure Scheduler (T : Type) where
  execQueueMask : BitVec 32
  threadsOnQueueCount : Int
  currentThread : Option T
  nextThread : Option T

/-- All processors and threads. `mostCrowded` is `KiMostCrowdedProcessor`, which is set whenever
`KiMoreAggressiveWorkStealing` is. -/
structure SchedSystem (P T : Type) where
  processors : List P
  queues : Links (QueueNode P T)
  global : Links (GlobalNode T)
  scheduler : P → Scheduler T
  thread : T → SchedThread P
  mostCrowded : Option P
  nextToSteal : Nat
  deleteDpc : T → Bool

def priorityCount : Nat := 32

def maxThreadsOnQueueOverloaded : Int := 100

def queueBit (priority : Nat) : BitVec 32 := 1#32 <<< (priority % 32)

/-- `KiAdjustPriorityBoost`: how much of the boost stays in the priority class. -/
def kiAdjustPriorityBoost (basePriority priorityBoost : Nat) : Nat :=
  let newPriority := basePriority + priorityBoost
  (if basePriority = 0 then 0
  else if newPriority > 31 ∧ 31 ≥ basePriority ∧ basePriority ≥ 27 then 31
  else if newPriority > 26 ∧ 26 ≥ basePriority ∧ basePriority ≥ 20 then 26
  else if newPriority > 19 ∧ 19 ≥ basePriority ∧ basePriority ≥ 8 then 19
  else if newPriority > 7 ∧ 7 ≥ basePriority ∧ basePriority ≥ 1 then 7
  else newPriority) - basePriority

namespace SchedSystem

variable {P T : Type} [DecidableEq P] [DecidableEq T]

def setScheduler (s : SchedSystem P T) (p : P) (x : Scheduler T) : SchedSystem P T :=
  { s with scheduler := update s.scheduler p x }

def setThread (s : SchedSystem P T) (t : T) (x : SchedThread P) : SchedSystem P T :=
  { s with thread := update s.thread t x }

def setMaskBit (s : SchedSystem P T) (p : P) (priority : Nat) : SchedSystem P T :=
  s.setScheduler p { s.scheduler p with
    execQueueMask := (s.scheduler p).execQueueMask ||| queueBit priority }

def clearMaskBit (s : SchedSystem P T) (p : P) (priority : Nat) : SchedSystem P T :=
  s.setScheduler p { s.scheduler p with
    execQueueMask := (s.scheduler p).execQueueMask &&& ~~~ queueBit priority }

def addToCount (s : SchedSystem P T) (p : P) (n : Int) : SchedSystem P T :=
  s.setScheduler p { s.scheduler p with
    threadsOnQueueCount := (s.scheduler p).threadsOnQueueCount + n }

/-- Clear the bit of a queue if it is empty now. -/
def clearMaskBitIfEmpty (s : SchedSystem P T) (p : P) (priority : Nat) : SchedSystem P T :=
  if s.queues.isEmpty (.head p priority) then s.clearMaskBit p priority else s

omit [DecidableEq P] [DecidableEq T] in
def kiCheckOverloadedExecQueues (s : SchedSystem P T) : SchedSystem P T :=
  let count := fun p => (s.scheduler p).threadsOnQueueCount
  { s with
    mostCrowded := s.processors.foldl (fun crowded p =>
      if count p ≥ maxThreadsOnQueueOverloaded then
        match crowded with
        | none => some p
        | some q => if count q < count p then some p else some q
      else crowded) none }

/-! ## Entering the queues -/

def insertTailQueue (s : SchedSystem P T) (p : P) (priority : Nat) (t : T) : SchedSystem P T :=
  { s with queues := s.queues.insertTail (.head p priority) (.entry t) }

def kiInitializeThread (s : SchedSystem P T) (c : P) (t : T) (priority : Nat) (affinity : P → Bool) :
    SchedSystem P T :=
  { s with
    queues := s.queues.initHead (.entry t)
    thread := update s.thread t
      { status := .initialized
        suspended := true
        priority := priority
        basePriority := priority
        priorityBoost := 0
        lastProcessor := c
        dontSteal := false
        affinity := affinity } }

/-- `KiSetPriorityThread`, on processor `c`. -/
def kiSetPriorityThread (s : SchedSystem P T) (c : P) (t : T) (priority : Nat) : SchedSystem P T :=
  let old := (s.thread t).priority
  let s :=
    if s.queues.isEmpty (.entry t) then s
    else
      let s := clearMaskBitIfEmpty { s with queues := s.queues.remove (.entry t) } c old
      let queues :=
        if old > priority then s.queues.insertHead (.head c priority) (.entry t)
        else s.queues.insertTail (.head c priority) (.entry t)
      setMaskBit { s with queues := queues } c priority
  s.setThread t { s.thread t with
    priority := priority, basePriority := priority, priorityBoost := 0 }

/-- `KiReadyThread`, on processor `c`. -/
def kiReadyThread (s : SchedSystem P T) (c : P) (t : T) : SchedSystem P T :=
  let s := s.setThread t { s.thread t with status := .ready, suspended := false }
  let s := { s with global := s.global.insertTail .head (.entry t) }
  let priority := (s.thread t).priority
  let s := ((s.insertTailQueue c priority t).addToCount c 1).setMaskBit c priority
  let s := s.setThread t { s.thread t with lastProcessor := c }
  s.kiCheckOverloadedExecQueues

/-- `KiUnwaitThread`, as far as it schedules the thread. -/
def kiUnwaitThread (s : SchedSystem P T) (t : T) (increment : Nat) : SchedSystem P T :=
  let thread := s.thread t
  let boost := kiAdjustPriorityBoost thread.priority increment
  let priority := thread.basePriority + boost
  let s := s.setThread t { thread with
    status := .ready, priority := priority, priorityBoost := boost, dontSteal := true }
  let s := (s.insertTailQueue thread.lastProcessor priority t).setMaskBit thread.lastProcessor
    priority
  s.kiCheckOverloadedExecQueues

/-! ## Leaving the queues -/

/-- The end of `KepPopNextThreadIfNeeded`: take thread `t` off the queue. -/
def popThread (s : SchedSystem P T) (p : P) (priority : Nat) (t : T) : SchedSystem P T :=
  let s := { s with queues := s.queues.remove (.entry t) }
  let s := (s.addToCount p (-1)).kiCheckOverloadedExecQueues
  let s := s.clearMaskBitIfEmpty p priority
  s.setThread t { s.thread t with priority := (s.thread t).basePriority, priorityBoost := 0 }

/-- The loop of `KepPopNextThreadIfNeeded`, over the priorities left. -/
def popLoop (s : SchedSystem P T) (c p : P) (otherProcessor : Bool) :
    List Nat → SchedSystem P T × Option T
  | [] => (s, none)
  | k :: ks =>
    if s.queues.isEmpty (.head p k) then s.popLoop c p otherProcessor ks
    else
      match s.queues.next (.head p k) with
      | .head _ _ => (s, none)
      | .entry t =>
        if !(s.thread t).affinity c then (s, none)
        else if (s.thread t).dontSteal && otherProcessor then (s, none)
        else (s.popThread p k t, some t)

/-- `KepPopNextThreadIfNeeded`, by processor `c` on the queues of `p`. -/
def kepPopNextThreadIfNeeded (s : SchedSystem P T) (c p : P) (minPriority : Nat)
    (otherProcessor : Bool) : SchedSystem P T × Option T :=
  if otherProcessor ∧ ((s.scheduler p).execQueueMask < queueBit minPriority ∨ minPriority = 0) then
    (s, none)
  else s.popLoop c p otherProcessor (List.range' minPriority (priorityCount - minPriority)).reverse

omit [DecidableEq P] [DecidableEq T] in
def kepGetNextProcessorToStealWorkFrom (s : SchedSystem P T) : SchedSystem P T × Option P :=
  match s.mostCrowded with
  | some p => (s, some p)
  | none =>
    ({ s with
        nextToSteal := if s.nextToSteal + 1 = s.processors.length then 0 else s.nextToSteal + 1 },
      s.processors[s.nextToSteal]?)

def kepTryStealThread (s : SchedSystem P T) (c : P) (minPriority : Nat) :
    SchedSystem P T × Option T :=
  match s.kepGetNextProcessorToStealWorkFrom with
  | (s, none) => (s, none)
  | (s, some p) => s.kepPopNextThreadIfNeeded c p (minPriority + 1) true

/-- One round of the inner loop of `KepStealManyThreads`: move thread `t`, the first of queue `i`. -/
def moveThread (s : SchedSystem P T) (their own : P) (i : Nat) (t : T) : SchedSystem P T :=
  let s := { s with queues := s.queues.removeHead (.head their i) }
  let s := (s.insertTailQueue own i t).clearMaskBitIfEmpty their i
  ((s.setMaskBit own i).addToCount their (-1)).addToCount own 1

/-- The inner loop of `KepStealManyThreads`, with what is left to steal. -/
def stealQueue (their own : P) (i : Nat) : Nat → SchedSystem P T → SchedSystem P T × Nat
  | 0, s => (s, 0)
  | left + 1, s =>
    if s.queues.isEmpty (.head their i) then (s, left + 1)
    else
      match s.queues.next (.head their i) with
      | .head _ _ => (s, left + 1)
      | .entry t => stealQueue their own i left (s.moveThread their own i t)

/-- The outer loop of `KepStealManyThreads`, over the priorities from `i` down to 1. -/
def stealQueues (their own : P) : Nat → Nat → SchedSystem P T → SchedSystem P T
  | 0, _, s => s
  | i + 1, left, s =>
    let (s, left) := stealQueue their own (i + 1) left s
    stealQueues their own i left s

def kepStealManyThreads (s : SchedSystem P T) (c : P) : SchedSystem P T :=
  match s.kepGetNextProcessorToStealWorkFrom with
  | (s, none) => s
  | (s, some p) =>
    stealQueues p c (priorityCount - 1) ((s.scheduler p).threadsOnQueueCount.tdiv 2).toNat s

omit [DecidableEq P] [DecidableEq T] in
/-- Go on if no thread was found. -/
def orElse (r : SchedSystem P T × Option T)
    (next : SchedSystem P T → SchedSystem P T × Option T) : SchedSystem P T × Option T :=
  match r with
  | (s, some t) => (s, some t)
  | (s, none) => next s

/-- The steal at the start of `KiGetNextThread`. -/
def stealIfCrowded (s : SchedSystem P T) (c : P) : SchedSystem P T :=
  if s.mostCrowded.isSome then
    match s.kepGetNextProcessorToStealWorkFrom with
    | (s, p) => if p ≠ some c then s.kepStealManyThreads c else s
  else s

/-- `KiGetNextThread`, on processor `c`. -/
def kiGetNextThread (s : SchedSystem P T) (c : P) (mayDowngrade : Bool) :
    SchedSystem P T × Option T :=
  let minPriority :=
    match (s.scheduler c).currentThread with
    | some t => (s.thread t).basePriority
    | none => 0
  let s := s.stealIfCrowded c
  let r := s.kepPopNextThreadIfNeeded c c (minPriority + 1) false
  let r := orElse r fun s => s.kepTryStealThread c (minPriority + 1)
  let r := orElse r fun s => s.kepPopNextThreadIfNeeded c c minPriority false
  let r := orElse r fun s => s.kepTryStealThread c minPriority
  orElse r fun s =>
    if mayDowngrade then
      orElse (s.kepTryStealThread c 1) fun s => s.kepPopNextThreadIfNeeded c c 0 false
    else (s, none)

/-! ## Switching -/

def setNextThread (s : SchedSystem P T) (c : P) (t : T) : SchedSystem P T :=
  s.setScheduler c { s.scheduler c with nextThread := some t }

/-- The current thread of `KiEndThreadQuantum`, put back on its queue or suspended. -/
def putBack (s : SchedSystem P T) (c : P) (t : T) : SchedSystem P T :=
  let s :=
    if (s.thread t).suspended then s.setThread t { s.thread t with status := .initialized }
    else
      let priority := (s.thread t).priority
      let s := s.setThread t { s.thread t with status := .ready }
      ((s.insertTailQueue c priority t).addToCount c 1).setMaskBit c priority
  let s := s.setThread t { s.thread t with lastProcessor := c }
  s.kiCheckOverloadedExecQueues

def kiEndThreadQuantum (s : SchedSystem P T) (c : P) : SchedSystem P T :=
  let current := (s.scheduler c).currentThread
  match s.kiGetNextThread c false with
  | (s, none) => s
  | (s, some next) =>
    let s := s.setNextThread c next
    match current with
    | none => s
    | some t => s.putBack c t

def kiPerformYield (s : SchedSystem P T) (c : P) : Option (SchedSystem P T) :=
  match (s.scheduler c).currentThread with
  | none => some (s.kiEndThreadQuantum c)
  | some t =>
    if (s.thread t).status = .running then some (s.kiEndThreadQuantum c)
    else
      match s.kiGetNextThread c true with
      | (_, none) => none
      | (s, some next) =>
        let s := s.setNextThread c next
        if (s.thread t).status = .terminated then
          some { s with deleteDpc := update s.deleteDpc t true }
        else some s

def kiSwitchToNextThread (s : SchedSystem P T) (c : P) (t : T) : SchedSystem P T :=
  let s := s.setScheduler c { s.scheduler c with currentThread := some t, nextThread := none }
  s.setThread t { s.thread t with status := .running, dontSteal := false }

def kiHandleQuantumEnd (s : SchedSystem P T) (c : P) : Option (SchedSystem P T) :=
  (s.kiPerformYield c).map fun s =>
    match (s.scheduler c).nextThread with
    | none => s
    | some t => s.kiSwitchToNextThread c t

/-! ## Suspension and the end of a thread -/

/-- `KiSetSuspendedThread`, on processor `c`. The yield of a thread that suspends itself is a quantum
end that comes after, with the dispatcher unlocked between. -/
def kiSetSuspendedThread (s : SchedSystem P T) (c : P) (t : T) (isSuspended : Bool) :
    SchedSystem P T :=
  if (s.thread t).suspended = isSuspended then s
  else
    let s := s.setThread t { s.thread t with suspended := isSuspended }
    if !isSuspended && (s.thread t).status = .initialized then s.kiReadyThread c t else s

def kepCleanUpThread (s : SchedSystem P T) (t : T) : SchedSystem P T :=
  { s with
    global := s.global.remove (.entry t)
    deleteDpc := update s.deleteDpc t false }

/-- Give the current thread another status, for a wait or for its end, and switch. -/
def leaveRunning (s : SchedSystem P T) (c : P) (status : SchedStatus) : Option (SchedSystem P T) :=
  match (s.scheduler c).currentThread with
  | none => none
  | some t =>
    if (s.thread t).status = .running then
      (s.setThread t { s.thread t with status := status }).kiHandleQuantumEnd c
    else none

end SchedSystem

/-- A step of processor `c`. -/
inductive SchedAction (P T : Type)
  | init (c : P) (t : T) (priority : Nat) (affinity : P → Bool)
  | ready (c : P) (t : T)
  | setPriority (c : P) (t : T) (priority : Nat)
  | setSuspended (c : P) (t : T) (isSuspended : Bool)
  | quantumEnd (c : P)
  | wait (c : P)
  | unwait (t : T) (increment : Nat)
  | terminate (c : P)
  | cleanUp (t : T)

/-- The steps, on threads in the states that callers have them in: a thread is initialized and made
ready once, and woken while it waits. -/
def SchedSystem.step {P T : Type} [DecidableEq P] [DecidableEq T] (s : SchedSystem P T) :
    SchedAction P T → Option (SchedSystem P T)
  | .init c t priority affinity =>
    if (s.thread t).status = .uninitialized ∧ priority < priorityCount then
      some (s.kiInitializeThread c t priority affinity)
    else none
  | .ready c t => if (s.thread t).status = .initialized then some (s.kiReadyThread c t) else none
  | .setPriority c t priority =>
    if (s.thread t).status ≠ .uninitialized ∧ priority < priorityCount then
      some (s.kiSetPriorityThread c t priority)
    else none
  | .setSuspended c t isSuspended =>
    if (s.thread t).status ≠ .uninitialized then some (s.kiSetSuspendedThread c t isSuspended)
    else none
  | .quantumEnd c => s.kiHandleQuantumEnd c
  | .wait c => s.leaveRunning c .waiting
  | .unwait t increment =>
    if (s.thread t).status = .waiting then some (s.kiUnwaitThread t increment) else none
  | .terminate c => s.leaveRunning c .terminated
  | .cleanUp t => if s.deleteDpc t then some (s.kepCleanUpThread t) else none

end Boron.Ke
