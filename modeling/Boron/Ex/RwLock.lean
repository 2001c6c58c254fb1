import Mathlib.Data.Fintype.Card

/-! # The read-write lock (`ex/rwlock.c`)

Every section of the code under the guard spin lock is one step of the thread that runs it; so are the
wait on the lock's event or semaphore, the time-out of that wait, and the write to
`ExclusiveOwner.OwnerThread` that an exclusive waiter makes after its wait, without the guard. Threads
are the elements of an arbitrary finite type.

The counters of the lock are `int`s, whose overflow is undefined; they are numbers here. The count of
a semaphore is a `short` and wraps (`ke/semaphor.c`, `ke/dispatch.c`), which is modelled. -/

namespace Boron.Ex

open Function

variable {T : Type} [DecidableEq T]

/-! ## The lock -/

/-- `EX_RW_LOCK_OWNER`; a null `OwnerThread` is `none`. -/
structure Owner (T : Type) where
  locked : Nat
  thread : Option T

/-- `EX_RW_LOCK`. Slot `0` is `SharedOwner` and slot `i + 1` is `OwnerTable[i]`. The event and the
    semaphore carry their lists of blocked threads. -/
structure RwLock (T : Type) where
  exclusiveOwner : Owner T
  slot : Nat → Owner T
  ownerTableSize : Nat
  sharedWaiterCount : Nat
  exclusiveWaiterCount : Nat
  heldCount : Nat
  eventSignaled : Bool
  eventWaiters : List T
  semaphoreCount : Nat
  semaphoreWaiters : List T

def exInitializeRwLock : RwLock T where
  exclusiveOwner := ⟨0, none⟩
  slot := fun _ => ⟨0, none⟩
  ownerTableSize := 0
  sharedWaiterCount := 0
  exclusiveWaiterCount := 0
  heldCount := 0
  eventSignaled := false
  eventWaiters := []
  semaphoreCount := 0
  semaphoreWaiters := []

namespace RwLock

/-- Overwrite an owner slot. -/
def setSlot (l : RwLock T) (i : Nat) (o : Owner T) : RwLock T :=
  { l with slot := update l.slot i o }

/-- The first entry of `OwnerTable` with this owner. -/
def tableFind (l : RwLock T) (owner : Option T) : Option Nat :=
  ((List.range l.ownerTableSize).find? fun i => decide ((l.slot (i + 1)).thread = owner)).map (· + 1)

/-- `ExFindOwnerRwLock` without a thread: a free table entry, else a free `SharedOwner`; `none` when
    the table has to grow. -/
def findFree (l : RwLock T) : Option Nat :=
  (l.tableFind none).orElse fun _ => if (l.slot 0).thread = none then some 0 else none

/-- What `ExFindOwnerRwLock` finds for a thread. -/
inductive Found
  | exclusiveOwner
  | slot (i : Nat)
  | mustGrow

/-- `ExFindOwnerRwLock` with a thread: its table entry, else a free slot, `SharedOwner` first. The
    owner of `SharedOwner` is not compared. -/
def findOwner (l : RwLock T) (t : T) : Found :=
  if l.exclusiveOwner.thread = some t then .exclusiveOwner
  else
    match l.tableFind (some t) with
    | some i => .slot i
    | none =>
      if (l.slot 0).thread = none then .slot 0
      else
        match l.tableFind none with
        | some i => .slot i
        | none => .mustGrow

/-- The end of `ExFindOwnerRwLock`, with the guard taken again: four entries more, unless another
    thread grew the table first. -/
def growTable (l : RwLock T) (oldSize : Nat) : RwLock T :=
  if l.ownerTableSize = oldSize then
    { l with
      slot := fun i => if oldSize < i ∧ i ≤ oldSize + 4 then ⟨0, none⟩ else l.slot i
      ownerTableSize := oldSize + 4 }
  else l

/-! ## The dispatcher's part -/

/-- `KeSetEventAndGetWaiter` on the synchronization event: the first blocked thread gets through, or
    the event stays signaled. -/
def setEventAndGetWaiter (l : RwLock T) : RwLock T × Option T :=
  match l.eventWaiters with
  | [] => ({ l with eventSignaled := true }, none)
  | u :: rest => ({ l with eventWaiters := rest }, some u)

/-- `KiWaitTest` on a semaphore: wake blocked threads, each taking one off the 16-bit count, until it
    is zero. Returns the count, the threads woken and those left. -/
def semaphoreTest : Nat → List T → Nat × List T × List T
  | count, [] => (count, [], [])
  | count, u :: rest =>
    let count := (count + 65535) % 65536
    if count = 0 then (0, [u], rest)
    else
      let r := semaphoreTest count rest
      (r.1, u :: r.2.1, r.2.2)

/-- `KeReleaseSemaphore`: the 16-bit sum, which crashes the kernel when it is negative. Returns the
    threads woken. -/
def releaseSemaphore (l : RwLock T) (adjustment : Nat) : Option (RwLock T × List T) :=
  let count := (l.semaphoreCount + adjustment) % 65536
  if 32768 ≤ count then none
  else
    let r := semaphoreTest count l.semaphoreWaiters
    some ({ l with semaphoreCount := r.1, semaphoreWaiters := r.2.2 }, r.2.1)

/-! ## The guarded sections -/

/-- How a guarded section of an acquisition ends for its thread. -/
inductive Outcome
  | acquiredExclusive
  | acquiredShared
  | timeout
  | waitExclusive
  | waitShared (slot : Nat)
  | grow

/-- `ExAcquireExclusiveRwLock`, up to the wait. -/
def acquireExclusive (l : RwLock T) (t : T) (dontBlock : Bool) : RwLock T × Outcome :=
  if l.heldCount = 0 then
    ({ l with heldCount := 1, exclusiveOwner := ⟨1, some t⟩ }, .acquiredExclusive)
  else if l.exclusiveOwner.locked ≠ 0 ∧ l.exclusiveOwner.thread = some t then
    ({ l with exclusiveOwner := ⟨l.exclusiveOwner.locked + 1, some t⟩ }, .acquiredExclusive)
  else if l.exclusiveOwner.locked = 0 ∧ dontBlock then (l, .timeout)
  else ({ l with exclusiveWaiterCount := l.exclusiveWaiterCount + 1 }, .waitExclusive)

/-- The end of `ExAcquireSharedRwLock`: the slot is claimed before the wait. -/
def claimAndWait (l : RwLock T) (t : T) (i : Nat) : RwLock T × Outcome :=
  ({ l.setSlot i ⟨1, some t⟩ with sharedWaiterCount := l.sharedWaiterCount + 1 }, .waitShared i)

/-- `ExAcquireSharedRwLock`, up to the wait or the growth of the table. -/
def acquireShared (l : RwLock T) (t : T) (dontBlock canStarve : Bool) : RwLock T × Outcome :=
  if l.heldCount = 0 then
    ({ l.setSlot 0 ⟨1, some t⟩ with heldCount := 1 }, .acquiredShared)
  else if l.exclusiveOwner.locked ≠ 0 then
    if l.exclusiveOwner.thread = some t then
      ({ l with exclusiveOwner := ⟨l.exclusiveOwner.locked + 1, some t⟩ }, .acquiredExclusive)
    else
      match l.findFree with
      | none => (l, .grow)
      | some i => l.claimAndWait t i
  else
    match l.findOwner t with
    | .mustGrow => (l, .grow)
    | .exclusiveOwner =>
      ({ l with exclusiveOwner := ⟨l.exclusiveOwner.locked + 1, some t⟩ }, .acquiredExclusive)
    | .slot i =>
      if (l.slot i).thread = some t then
        (l.setSlot i ⟨(l.slot i).locked + 1, some t⟩, .acquiredShared)
      else if canStarve ∨ l.exclusiveWaiterCount = 0 then
        ({ l.setSlot i ⟨1, some t⟩ with heldCount := l.heldCount + 1 }, .acquiredShared)
      else if dontBlock then (l, .timeout)
      else l.claimAndWait t i

/-- Let every recorded shared waiter through, the lock being held by `held` others. -/
def wakeShared (l : RwLock T) (held : Nat) : Option (RwLock T × List T) :=
  { l with heldCount := held + l.sharedWaiterCount, sharedWaiterCount := 0 }.releaseSemaphore
    l.sharedWaiterCount

/-- `ExDemoteToSharedRwLock` in the free slot `i`. -/
def demote (l : RwLock T) (t : T) (i : Nat) : Option (RwLock T × List T) :=
  let l' := { l.setSlot i ⟨l.exclusiveOwner.locked, some t⟩ with exclusiveOwner := ⟨0, none⟩ }
  if l.sharedWaiterCount = 0 then some (l', []) else l'.wakeShared l.heldCount

/-- Whom a release lets through. -/
structure Wakes (T : Type) where
  exclusive : Option T
  shared : List T

/-- The end of `ExReleaseRwLock`, when the last recursion of an owner slot is gone. -/
def passOver (l : RwLock T) (exclusive : Bool) : Option (RwLock T × Wakes T) :=
  let held := l.heldCount - 1
  if held = 0 then
    if (!exclusive || l.sharedWaiterCount == 0) && l.exclusiveWaiterCount != 0 then
      let r :=
        { l with
          heldCount := 1
          exclusiveWaiterCount := l.exclusiveWaiterCount - 1 }.setEventAndGetWaiter
      some ({ r.1 with exclusiveOwner := ⟨1, r.2⟩ }, ⟨r.2, []⟩)
    else if l.sharedWaiterCount ≠ 0 then
      (l.wakeShared 0).map fun r => (r.1, ⟨none, r.2⟩)
    else some ({ l with heldCount := 0 }, ⟨none, []⟩)
  else some ({ l with heldCount := held }, ⟨none, []⟩)

/-- The shared slot `ExReleaseRwLock` finds for its thread. -/
def ownedSlot (l : RwLock T) (t : T) : Option Nat :=
  if (l.slot 0).thread = some t then some 0 else l.tableFind (some t)

/-- `ExReleaseRwLock`; `none` where it dereferences a null owner. -/
def release (l : RwLock T) (t : T) : Option (RwLock T × Wakes T) :=
  if l.exclusiveOwner.thread = some t then
    let locked := l.exclusiveOwner.locked - 1
    if locked ≠ 0 then some ({ l with exclusiveOwner := ⟨locked, some t⟩ }, ⟨none, []⟩)
    else { l with exclusiveOwner := ⟨0, none⟩ }.passOver true
  else
    match l.ownedSlot t with
    | none => none
    | some i =>
      let locked := (l.slot i).locked - 1
      if locked ≠ 0 then some (l.setSlot i ⟨locked, some t⟩, ⟨none, []⟩)
      else (l.setSlot i ⟨0, none⟩).passOver false

end RwLock

/-! ## Threads -/

/-- What a thread whose table has to grow is in the middle of. -/
inductive Call
  | acquireShared (dontBlock canStarve : Bool)
  | demote
  deriving DecidableEq

/-- Where a thread is. -/
inductive Pc
  | idle
  /-- In `ExFindOwnerRwLock` with the guard dropped. -/
  | growing (oldSize : Nat) (call : Call)
  /-- Before another round of the loop. -/
  | again (call : Call)
  /-- Recorded as a waiter, before the wait, or between two of its rounds. -/
  | aboutExclusive
  | aboutShared (slot : Nat)
  | blockedExclusive
  | blockedShared (slot : Nat)
  /-- Through the wait, before the write to `ExclusiveOwner.OwnerThread`. -/
  | woken
  deriving DecidableEq

/-- The lock, its threads, and what each of them has acquired and not released: in exclusive mode
    (recursive acquisitions included) and in shared mode. -/
structure RwSystem (T : Type) where
  lock : RwLock T
  pc : T → Pc
  exclusive : T → Nat
  shared : T → Nat

/-- A step of a thread. -/
inductive RwAction (T : Type)
  | acquireExclusive (t : T) (dontBlock : Bool)
  | acquireShared (t : T) (dontBlock canStarve : Bool)
  | demote (t : T)
  | release (t : T)
  | grow (t : T)
  | retry (t : T)
  | wait (t : T)
  | timeout (t : T)
  | resume (t : T)

namespace RwSystem

def init : RwSystem T where
  lock := exInitializeRwLock
  pc := fun _ => .idle
  exclusive := fun _ => 0
  shared := fun _ => 0

def setPc (s : RwSystem T) (t : T) (pc : Pc) : RwSystem T :=
  { s with pc := update s.pc t pc }

/-- A thread returns from an acquisition in shared mode. -/
def gainShared (s : RwSystem T) (t : T) : RwSystem T :=
  { s with pc := update s.pc t .idle, shared := update s.shared t (s.shared t + 1) }

/-- A thread returns from an acquisition in exclusive mode. -/
def gainExclusive (s : RwSystem T) (t : T) : RwSystem T :=
  { s with
    pc := update s.pc t .idle
    exclusive := update s.exclusive t (s.exclusive t + 1) }

/-- The shared waiters that got through return. -/
def gainAll (s : RwSystem T) (ts : List T) : RwSystem T := ts.foldl gainShared s

/-- The exclusive waiter that got through. -/
def wake (s : RwSystem T) (t : Option T) : RwSystem T :=
  match t with
  | none => s
  | some t => s.setPc t .woken

/-- The thread after a guarded section of an acquisition. -/
def settle (s : RwSystem T) (t : T) (call : Call) : RwLock T × RwLock.Outcome → RwSystem T
  | (l, .acquiredExclusive) => { s with lock := l }.gainExclusive t
  | (l, .acquiredShared) => { s with lock := l }.gainShared t
  | (l, .timeout) => { s with lock := l }.setPc t .idle
  | (l, .waitExclusive) => { s with lock := l }.setPc t .aboutExclusive
  | (l, .waitShared i) => { s with lock := l }.setPc t (.aboutShared i)
  | (l, .grow) => { s with lock := l }.setPc t (.growing l.ownerTableSize call)

/-- One round of a call that may have to grow the table. -/
def round (s : RwSystem T) (t : T) : Call → Option (RwSystem T)
  | .acquireShared dontBlock canStarve =>
    some (s.settle t (.acquireShared dontBlock canStarve) (s.lock.acquireShared t dontBlock canStarve))
  | .demote =>
    match s.lock.findFree with
    | none => some (s.setPc t (.growing s.lock.ownerTableSize .demote))
    | some i =>
      (s.lock.demote t i).map fun r =>
        let s' : RwSystem T :=
          { lock := r.1
            pc := update s.pc t .idle
            exclusive := update s.exclusive t 0
            shared := update s.shared t (s.shared t + s.exclusive t) }
        s'.gainAll r.2

/-- What the thread gives up in a release. -/
def giveUp (s : RwSystem T) (t : T) : RwSystem T :=
  if s.lock.exclusiveOwner.thread = some t then
    { s with exclusive := update s.exclusive t (s.exclusive t - 1) }
  else { s with shared := update s.shared t (s.shared t - 1) }

/-- The steps. A thread demotes only what it holds exclusively and releases only what it holds. -/
def step (s : RwSystem T) : RwAction T → Option (RwSystem T)
  | .acquireExclusive t dontBlock =>
    if s.pc t = .idle then
      some (s.settle t .demote (s.lock.acquireExclusive t dontBlock))
    else none
  | .acquireShared t dontBlock canStarve =>
    if s.pc t = .idle then s.round t (.acquireShared dontBlock canStarve) else none
  | .demote t => if s.pc t = .idle ∧ 0 < s.exclusive t then s.round t .demote else none
  | .release t =>
    if s.pc t = .idle ∧ 0 < s.exclusive t + s.shared t then
      (s.lock.release t).map fun r =>
        (({ s.giveUp t with lock := r.1 }.gainAll r.2.shared).wake r.2.exclusive)
    else none
  | .grow t =>
    match s.pc t with
    | .growing oldSize call =>
      some ({ s with lock := s.lock.growTable oldSize }.setPc t (.again call))
    | _ => none
  | .retry t =>
    match s.pc t with
    | .again call => s.round t call
    | _ => none
  | .wait t =>
    match s.pc t with
    | .aboutExclusive =>
      if s.lock.eventSignaled then
        some ({ s with lock := { s.lock with eventSignaled := false } }.setPc t .woken)
      else
        some ({ s with lock := { s.lock with eventWaiters := s.lock.eventWaiters ++ [t] } }.setPc t
          .blockedExclusive)
    | .aboutShared i =>
      if s.lock.semaphoreCount ≠ 0 then
        some ({ s with lock := { s.lock with
          semaphoreCount := s.lock.semaphoreCount - 1 } }.gainShared t)
      else
        some ({ s with lock := { s.lock with
          semaphoreWaiters := s.lock.semaphoreWaiters ++ [t] } }.setPc t (.blockedShared i))
    | _ => none
  | .timeout t =>
    match s.pc t with
    | .blockedExclusive =>
      some ({ s with lock := { s.lock with
        eventWaiters := s.lock.eventWaiters.erase t } }.setPc t .aboutExclusive)
    | .blockedShared i =>
      some ({ s with lock := { s.lock with
        semaphoreWaiters := s.lock.semaphoreWaiters.erase t } }.setPc t (.aboutShared i))
    | _ => none
  | .resume t =>
    if s.pc t = .woken then
      some ({ s with lock := { s.lock with
        exclusiveOwner := ⟨s.lock.exclusiveOwner.locked, some t⟩ } }.gainExclusive t)
    else none

end RwSystem

end Boron.Ex
