import Mathlib.Logic.Function.Basic

/-! # Asynchronous procedure calls (`ke/apc.c`)

A thread has a queue of kernel APCs, special ones (without a normal routine) before normal ones, and
`KiDispatchApcQueue` takes them from its head until it meets one that must wait. The dispatcher lock
is dropped around each routine, so insertions by other threads and further dispatches of the same
thread fall in between.

A step is a stretch of code between two points at which the lock is dropped or the CPU may be taken:
the test at the start of `KeInsertQueueApc` is one of its own. A thread's dispatches that have not
returned are a stack of frames, each of them in a routine. Threads, APC objects and the calls of
`KeInsertQueueApc` that are under way are the types `τ`, `α` and `ι`. -/

namespace Boron.Ke

open Function

/-! ## Objects -/

/-- `KPROCESSOR_MODE`. -/
inductive ApcMode
  | kernel
  | user
  deriving DecidableEq, Repr

/-- `SystemArgument1` and `SystemArgument2`. -/
structure ApcArguments where
  systemArgument1 : Nat
  systemArgument2 : Nat
  deriving DecidableEq, Repr

/-- `KAPC`; routines and contexts are pointers. -/
structure Apc (τ : Type) where
  thread : τ
  kernelRoutine : Nat
  normalRoutine : Option Nat
  normalContext : Nat
  arguments : ApcArguments
  apcMode : ApcMode
  enqueued : Bool

/-- The values of `WaitStatus` that are told apart here. -/
inductive ApcWaitStatus
  | waiting
  | alerted
  | kernelApc
  | other
  deriving DecidableEq, Repr

/-- A dispatch that has not returned: the APC it is delivering, whether that is a normal one, whether
its normal routine runs, and `WasWaiting`. Nothing reads `entry`, the value of `ApcInProgress` that the
dispatch found. -/
structure ApcFrame (α : Type) where
  apc : α
  normal : Bool
  inNormalRoutine : Bool
  wasWaiting : Bool
  entry : Nat

/-- The fields of `KTHREAD` that APCs use. -/
structure ApcThread (α : Type) where
  kernelApcQueue : List α
  userApcQueue : List α
  apcInProgress : Nat
  apcDisableCount : Nat
  isWaiting : Bool
  waitIsAlertable : Bool
  waitMode : ApcMode
  waitStatus : ApcWaitStatus
  apcInterrupt : Bool
  frames : List (ApcFrame α)

/-- What can be seen from outside. -/
inductive ApcEvent (τ α : Type)
  | accepted (apc : α) (arguments : ApcArguments)
  | kernelRoutine (apc : α) (arguments : ApcArguments)
  | normalRoutine (thread : τ) (routine context : Nat) (arguments : ApcArguments)
  | returned (thread : τ) (entry exit : Nat) (specialLeft : Bool)

structure ApcSystem (τ α ι : Type) where
  apc : α → Apc τ
  thread : τ → ApcThread α
  inserting : ι → Option α
  log : List (ApcEvent τ α)

/-- What a kernel routine leaves in its in-out parameters. -/
structure ApcOutcome where
  normalRoutine : Option Nat
  normalContext : Nat
  arguments : ApcArguments
  deriving DecidableEq, Repr

def keInitializeApc {τ : Type} (thread : τ) (kernelRoutine : Nat) (normalRoutine : Option Nat)
    (normalContext : Nat) (apcMode : ApcMode) : Apc τ where
  thread := thread
  kernelRoutine := kernelRoutine
  normalRoutine := normalRoutine
  normalContext := normalContext
  arguments := ⟨0, 0⟩
  apcMode := if normalRoutine.isSome then apcMode else .kernel
  enqueued := false

namespace ApcSystem

variable {τ α ι : Type} [DecidableEq τ] [DecidableEq α] [DecidableEq ι]

def setApc (s : ApcSystem τ α ι) (a : α) (x : Apc τ) : ApcSystem τ α ι :=
  { s with apc := update s.apc a x }

def setThread (s : ApcSystem τ α ι) (t : τ) (x : ApcThread α) : ApcSystem τ α ι :=
  { s with thread := update s.thread t x }

def setInserting (s : ApcSystem τ α ι) (i : ι) (x : Option α) : ApcSystem τ α ι :=
  { s with inserting := update s.inserting i x }

def record (s : ApcSystem τ α ι) (e : ApcEvent τ α) : ApcSystem τ α ι :=
  { s with log := s.log ++ [e] }

/-! ## `KeInsertQueueApc` -/

/-- `KeInsertQueueApc` up to the lock: the flag is tested and the arguments are stored. -/
def insertTest (s : ApcSystem τ α ι) (i : ι) (a : α) (arguments : ApcArguments) : ApcSystem τ α ι :=
  if (s.apc a).enqueued then s
  else (s.setApc a { s.apc a with arguments := arguments }).setInserting i (some a)

/-- `KiUnwaitThread`, as far as it concerns APCs. -/
def kiUnwaitThread (th : ApcThread α) (status : ApcWaitStatus) : ApcThread α :=
  { th with isWaiting := false, waitStatus := status }

/-- What `KeInsertQueueApc` does to the subject thread. -/
def enqueueApc (th : ApcThread α) (apc : Apc τ) (a : α) (current : τ) : ApcThread α :=
  match apc.apcMode with
  | .user =>
    let th := { th with userApcQueue := th.userApcQueue ++ [a] }
    if th.isWaiting && th.waitIsAlertable && th.waitMode == .user && th.waitStatus == .waiting then
      kiUnwaitThread th .alerted
    else th
  | .kernel =>
    let th := { th with kernelApcQueue :=
      if apc.normalRoutine.isNone then a :: th.kernelApcQueue else th.kernelApcQueue ++ [a] }
    let th := if current = apc.thread then { th with apcInterrupt := true } else th
    if th.isWaiting &&
        (apc.normalRoutine.isNone || (th.apcDisableCount == 0 && th.apcInProgress == 0)) then
      kiUnwaitThread th .kernelApc
    else th

/-- The rest of `KeInsertQueueApc`, under the lock. An object that is in a queue already would break
the queue's links, and there is no list to go on with. -/
def insertQueue (s : ApcSystem τ α ι) (i : ι) (current : τ) : Option (ApcSystem τ α ι) :=
  (s.inserting i).bind fun a =>
    let apc := s.apc a
    if a ∈ (s.thread apc.thread).kernelApcQueue ∨ a ∈ (s.thread apc.thread).userApcQueue then none
    else
      let s := s.setInserting i none
      let s := s.setApc a { apc with enqueued := true }
      let s := s.setThread apc.thread (enqueueApc (s.thread apc.thread) apc a current)
      some (if apc.apcMode = .kernel then s.record (.accepted a apc.arguments) else s)

/-! ## `KiDispatchApcQueue` -/

/-- The APC that the loop of `KiDispatchApcQueue` takes next, if it does not end. -/
def nextApc (s : ApcSystem τ α ι) (t : τ) : Option α :=
  match (s.thread t).kernelApcQueue with
  | [] => none
  | a :: _ =>
    if (s.apc a).normalRoutine.isNone ||
        ((s.thread t).apcInProgress + 1 == 1 && (s.thread t).apcDisableCount == 0) then some a
    else none

/-- The loop of `KiDispatchApcQueue` up to the next kernel routine, or to the end. -/
def dispatchLoop (s : ApcSystem τ α ι) (t : τ) (entry : Nat) (wasWaiting : Bool) :
    ApcSystem τ α ι :=
  let th := s.thread t
  match s.nextApc t with
  | some a =>
    (s.setThread t { th with
      apcInProgress := th.apcInProgress + 1
      kernelApcQueue := th.kernelApcQueue.tail
      frames := ⟨a, (s.apc a).normalRoutine.isSome, false, wasWaiting, entry⟩ :: th.frames }).record
        (.kernelRoutine a (s.apc a).arguments)
  | none =>
    (s.setThread t { th with
      waitStatus := if wasWaiting then .kernelApc else th.waitStatus }).record
        (.returned t entry th.apcInProgress
          (th.kernelApcQueue.any fun a => (s.apc a).normalRoutine.isNone))

/-- `KiDispatchApcQueue` is called. -/
def kiDispatchApcQueue (s : ApcSystem τ α ι) (t : τ) : ApcSystem τ α ι :=
  s.dispatchLoop t (s.thread t).apcInProgress ((s.thread t).waitStatus == .kernelApc)

/-- The end of an iteration: the lock is taken, and the loop goes on. -/
def nextIteration (s : ApcSystem τ α ι) (t : τ) (f : ApcFrame α) (rest : List (ApcFrame α)) :
    ApcSystem τ α ι :=
  (s.setThread t { s.thread t with
    apcInProgress := (s.thread t).apcInProgress - 1
    frames := rest }).dispatchLoop t f.entry f.wasWaiting

/-- The kernel routine that the thread runs returns. The normal routine that is called then is the one
in the object, whatever the kernel routine made of it. -/
def kernelRoutineReturns (s : ApcSystem τ α ι) (t : τ) (out : ApcOutcome) :
    Option (ApcSystem τ α ι) :=
  match (s.thread t).frames with
  | [] => none
  | f :: rest =>
    if f.inNormalRoutine then none
    else if f.normal && out.normalRoutine.isSome then
      (s.apc f.apc).normalRoutine.map fun routine =>
        (s.setThread t { s.thread t with
          frames := { f with inNormalRoutine := true } :: rest }).record
            (.normalRoutine t routine out.normalContext out.arguments)
    else some (s.nextIteration t f rest)

/-- The normal routine that the thread runs returns. -/
def normalRoutineReturns (s : ApcSystem τ α ι) (t : τ) : Option (ApcSystem τ α ι) :=
  match (s.thread t).frames with
  | [] => none
  | f :: rest => if f.inNormalRoutine then some (s.nextIteration t f rest) else none

/-! ## Steps -/

inductive Action (τ α ι : Type)
  | initializeApc (a : α) (thread : τ) (kernelRoutine : Nat) (normalRoutine : Option Nat)
      (normalContext : Nat) (apcMode : ApcMode)
  | insertTest (i : ι) (a : α) (arguments : ApcArguments)
  | insertQueue (i : ι) (current : τ)
  | dispatch (t : τ)
  | kernelRoutineReturns (t : τ) (out : ApcOutcome)
  | normalRoutineReturns (t : τ)
  | disable (t : τ) (count : Nat)
  | wait (t : τ) (isWaiting waitIsAlertable : Bool) (waitMode : ApcMode) (waitStatus : ApcWaitStatus)

def step (s : ApcSystem τ α ι) : Action τ α ι → Option (ApcSystem τ α ι)
  | .initializeApc a t kernelRoutine normalRoutine normalContext apcMode =>
    some (s.setApc a (keInitializeApc t kernelRoutine normalRoutine normalContext apcMode))
  | .insertTest i a arguments => some (s.insertTest i a arguments)
  | .insertQueue i current => s.insertQueue i current
  | .dispatch t => some (s.kiDispatchApcQueue t)
  | .kernelRoutineReturns t out => s.kernelRoutineReturns t out
  | .normalRoutineReturns t => s.normalRoutineReturns t
  | .disable t count => some (s.setThread t { s.thread t with apcDisableCount := count })
  | .wait t isWaiting waitIsAlertable waitMode waitStatus =>
    some (s.setThread t { s.thread t with
      isWaiting := isWaiting, waitIsAlertable := waitIsAlertable, waitMode := waitMode,
      waitStatus := waitStatus })

end ApcSystem

end Boron.Ke
