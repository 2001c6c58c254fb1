import Boron.Lib.Counted
import Boron.Lib.Run

/-! # Thread and process objects (`ps/thread.c`, `ex/servsup.c`, `ob/ref.c`)

A thread object is referred to by its handles, by itself while it runs, and by the calls that use it;
a process object by its handles, by each of its threads until that has terminated, and by the calls
that use it. Here any number of calls are going on and their steps interleave.

A new thread belongs to the call that creates it until it is initialized, so both are one step. What
the outside decides (whether there is memory for an object or a kernel stack, which handle is free,
whether the caller's memory can be written) is part of a step. A thread that ends, on its own account
or because its termination is pending, is cleaned up by a DPC, which calls `PspTerminateThread`: the
references it drops are dropped at high IPL, where objects are left to the reaper thread. The
scheduler's own state is left out, but for the flags that the services set. -/

namespace Boron.Ps

/-- A handle, with the process in whose table it is. -/
structure Handle (O : Type) where
  process : O
  number : Nat
  deriving DecidableEq

/-- `EPROCESS` and `ETHREAD`. A thread has no process before `KeInitializeThread`. -/
inductive Body (O : Type)
  | process
  | thread (process : Option O) (suspended pendingTermination : Bool)
  deriving DecidableEq

structure Object (O : Type) where
  pointerCount : Nat
  permanent : Bool
  body : Body O
  deriving DecidableEq

/-- The types that the services ask for. -/
inductive ObjectType
  | thread
  | process
  deriving DecidableEq

def Body.type {O : Type} : Body O → ObjectType
  | .process => .process
  | .thread .. => .thread

/-- `Thread->Tcb.Process`. -/
def Body.ofThread {O : Type} : Body O → Option O
  | .process => none
  | .thread p _ _ => p

/-- Who calls: a thread of the process manager or, with `none`, one of the kernel's own. -/
structure Caller (O : Type) where
  thread : Option O
  process : O
  deriving DecidableEq

/-- A `HANDLE` argument; `currentThread` and `currentProcess` are the special values. -/
inductive Argument
  | number (number : Nat)
  | currentThread
  | currentProcess

/-- The calls that are going on, with what they have still to give back. -/
inductive Call (O : Type)
  /-- `PsCreateSystemThread`, with a reference of the process. -/
  | creating (process : O)
  /-- The thread is initialized, and about to get a handle. -/
  | initialized (process thread : O)
  /-- The thread has a handle, which is about to be copied out. -/
  | inserted (process thread : O) (handle : Handle O)
  /-- At `FailUndo`. -/
  | undoing (process thread : O)
  /-- Some routine that gives its reference back when it is done. -/
  | holding (object : O)
  /-- `OSTerminateThread`, with its reference. -/
  | terminating (caller : Caller O) (thread : O)
  /-- `OSSetSuspendedThread`, with its reference. -/
  | suspending (thread : O) (isSuspended : Bool)
  /-- `PspTerminateThread`, for a thread of this process. -/
  | cleaning (thread process : O)
  /-- `PspTerminateThread`, after it has released the self-reference. -/
  | cleaned (thread process : O)
  /-- `ObKillHandleTable`, for a process that is being deleted. -/
  | killing (process : O)
  deriving DecidableEq

namespace Call

variable {O : Type}

/-- The references that a call has. -/
def references : Call O → List O
  | .creating p => [p]
  | .initialized p o | .inserted p o _ | .undoing p o => [p, o]
  | .holding o | .terminating _ o | .suspending o _ => [o]
  | .cleaning o p => [o, p]
  | .cleaned _ p => [p]
  | .killing _ => []

end Call

/-- What a step gets from outside: where a new object goes, whether there is a kernel stack for it,
the free handle, and whether the handle could be copied out. -/
structure Answers (O : Type) where
  object : Option O
  stack : Bool
  handle : Option (Handle O)
  copied : Bool

/-- The objects, the handles of all processes, the threads that were started and are not cleaned up
yet, each with its process, the calls, and the objects that wait for the reaper. -/
structure Threads (O : Type) where
  systemProcess : O
  object : O → Option (Object O)
  handles : List (Handle O × O)
  threadList : List (O × O)
  calls : List (Call O)
  reaperList : List O

namespace Threads

variable {O : Type} [DecidableEq O]

/-! ## Objects and handles -/

def set (s : Threads O) (o : O) (x : Option (Object O)) : Threads O :=
  { s with object := Function.update s.object o x }

/-- A call goes on, or a new one starts. -/
def enter (s : Threads O) (call : Call O) : Threads O := { s with calls := call :: s.calls }

/-- `ObReferenceObjectByPointer`; `none` if there is no object. -/
def obReferenceObjectByPointer (s : Threads O) (o : O) : Option (Threads O) :=
  (s.object o).map fun x => s.set o (some { x with pointerCount := x.pointerCount + 1 })

/-- `ObpDeleteObject`. A process still has its handles to close. -/
def obpDeleteObject (s : Threads O) (o : O) (x : Object O) : Threads O :=
  match x.body with
  | .process => (s.set o none).enter (.killing o)
  | .thread .. => s.set o none

/-- `ObDereferenceObject`; `none` if there is no object or its count is too small. -/
def obDereferenceObject (s : Threads O) (o : O) (highIpl : Bool) : Option (Threads O) :=
  (s.object o).bind fun x =>
    match x.pointerCount with
    | 0 => none
    | count + 1 =>
      let s := s.set o (some { x with pointerCount := count })
      if count ≠ 0 ∨ x.permanent then some s
      else if highIpl then some { s with reaperList := s.reaperList ++ [o] }
      else some (s.obpDeleteObject o x)

/-- The entry of a handle in its table. -/
def entry (s : Threads O) (handle : Handle O) : Option (Handle O × O) :=
  s.handles.find? fun e => e.1 = handle

/-- `ObClose`; a handle that is not there changes nothing. -/
def obClose (s : Threads O) (handle : Handle O) : Option (Threads O) :=
  match s.entry handle with
  | none => some s
  | some e => obDereferenceObject { s with handles := s.handles.erase e } e.2 false

/-- `ObInsertObject`, with the handle that `ExCreateHandle` has found free, if any. -/
def obInsertObject (s : Threads O) (o : O) (handle : Option (Handle O)) : Option (Threads O) :=
  match handle with
  | some h =>
    if (s.entry h).isNone then
      (s.obReferenceObjectByPointer o).map fun s => { s with handles := (h, o) :: s.handles }
    else none
  | none => (s.obReferenceObjectByPointer o).bind fun s => s.obDereferenceObject o false

/-- The object that `ExReferenceObjectByHandle` refers to; `none` if it fails. -/
def resolve (s : Threads O) (caller : Caller O) (argument : Argument)
    (expectedType : Option ObjectType) : Option O :=
  match argument with
  | .currentThread => if expectedType = some .thread then caller.thread else none
  | .currentProcess => if expectedType = some .process then some caller.process else none
  | .number number =>
    (s.entry ⟨caller.process, number⟩).bind fun e =>
      (s.object e.2).bind fun x =>
        if expectedType.any fun type => type ≠ x.body.type then none else some e.2

/-- `ExReferenceObjectByHandle`, by a service that goes on with the object as `call`. -/
def exReferenceObjectByHandle (s : Threads O) (caller : Caller O) (argument : Argument)
    (expectedType : Option ObjectType) (call : O → Call O) : Option (Threads O) :=
  match s.resolve caller argument expectedType with
  | none => some s
  | some o => (s.obReferenceObjectByPointer o).map fun s => s.enter (call o)

/-! ## Threads -/

/-- There is no object, nor the rest of one. -/
def Vacant (s : Threads O) (o : O) : Prop :=
  s.object o = none ∧ .killing o ∉ s.calls

instance (s : Threads O) (o : O) : Decidable (s.Vacant o) := inferInstanceAs (Decidable (_ ∧ _))

/-- `ObCreateObject` for a thread. -/
def obCreateThread (s : Threads O) (o : O) : Threads O :=
  s.set o (some ⟨1, false, .thread none false false⟩)

/-- `PspInitializeThread`, with a kernel stack for it. -/
def pspInitializeThread (s : Threads O) (o process : O) : Option (Threads O) :=
  (s.object o).bind fun x =>
    let s := s.set o (some { x with body := .thread (some process) true false })
    (s.obReferenceObjectByPointer process).bind fun s =>
      (s.obReferenceObjectByPointer o).map fun s =>
        { s with threadList := (o, process) :: s.threadList }

/-- `KiTerminateThread` and `KiSetSuspendedThread`: the flags of a thread. -/
def setFlags (s : Threads O) (o : O) (f : Bool → Bool → Bool × Bool) : Threads O :=
  match s.object o with
  | some ⟨count, permanent, .thread process suspended pendingTermination⟩ =>
    let flags := f suspended pendingTermination
    s.set o (some ⟨count, permanent, .thread process flags.1 flags.2⟩)
  | _ => s

/-- The end of a thread: it is taken off the lists, and its termination method is called. -/
def kepCleanUpThread (s : Threads O) (o process : O) : Option (Threads O) :=
  if (o, process) ∈ s.threadList then
    some (enter { s with threadList := s.threadList.erase (o, process) } (.cleaning o process))
  else none

/-- The next step of a call; `none` if it is not possible. -/
def turn (s : Threads O) (call : Call O) (answers : Answers O) : Option (Threads O) :=
  let s := { s with calls := s.calls.erase call }
  match call with
  | .creating p =>
    match answers.object with
    | none => some (s.enter (.holding p))
    | some o =>
      if s.Vacant o then
        if answers.stack then
          ((s.obCreateThread o).pspInitializeThread o p).map (·.enter (.initialized p o))
        else some ((s.obCreateThread o).enter (.holding p))
      else none
  | .initialized p o =>
    (s.obInsertObject o answers.handle).map fun s =>
      match answers.handle with
      | some h => s.enter (.inserted p o h)
      | none => s.enter (.undoing p o)
  | .inserted p o h =>
    if answers.copied then (s.enter (.holding p)).obDereferenceObject o false
    else (s.enter (.undoing p o)).obClose h
  | .undoing p o => (s.enter (.holding p)).obDereferenceObject o false
  | .holding o =>
    match answers.handle with
    | some h => (s.enter (.holding o)).obInsertObject o h
    | none => s.obDereferenceObject o false
  | .terminating caller o =>
    if caller.thread = some o then s.kepCleanUpThread o caller.process
    else some (s.setFlags o fun suspended _ => (suspended, true))
  | .suspending o isSuspended => some (s.setFlags o fun _ pending => (isSuspended, pending))
  | .cleaning o p => (s.enter (.cleaned o p)).obDereferenceObject o true
  | .cleaned o _ =>
    (s.object o).bind fun x =>
      match x.body.ofThread with
      | some p => s.obDereferenceObject p true
      | none => some s
  | .killing p =>
    match s.handles.find? fun e => e.1.process = p with
    | some e => (s.enter (.killing p)).obClose e.1
    | none => some s

/-! ## The system -/

/-- A thread calls a service, a call goes on, a thread ends, or the reaper deletes an object. -/
inductive Action (O : Type)
  /-- A new process, with the one handle that its creator gets. -/
  | osCreateProcess (o : O) (handle : Handle O)
  | osCreateThread (caller : Caller O) (process : Option Argument)
  | psCreateSystemThreadFast (caller : Caller O) (o : O) (stack : Bool)
  /-- Any service that refers to an object by handle and gives the reference back. -/
  | refer (caller : Caller O) (argument : Argument) (expectedType : Option ObjectType)
  | osClose (caller : Caller O) (number : Nat)
  | osTerminateThread (caller : Caller O) (argument : Argument)
  | osSetSuspendedThread (caller : Caller O) (argument : Argument) (isSuspended : Bool)
  | turn (call : Call O) (answers : Answers O)
  | exit (o process : O)
  | reap (o : O)

/-- The caller is a thread that runs, or one of the kernel's own. -/
def Runs (s : Threads O) : Caller O → Prop
  | ⟨some o, p⟩ => (o, p) ∈ s.threadList
  | ⟨none, p⟩ => p = s.systemProcess

instance (s : Threads O) (caller : Caller O) : Decidable (s.Runs caller) :=
  match caller with
  | ⟨some o, p⟩ => inferInstanceAs (Decidable ((o, p) ∈ s.threadList))
  | ⟨none, p⟩ => inferInstanceAs (Decidable (p = s.systemProcess))

def step (s : Threads O) : Action O → Option (Threads O)
  | .osCreateProcess o handle =>
    if s.Vacant o ∧ (s.entry handle).isNone then
      some { s.set o (some ⟨1, false, .process⟩) with handles := (handle, o) :: s.handles }
    else none
  | .osCreateThread caller process =>
    if s.Runs caller then
      match process with
      | none =>
        (s.obReferenceObjectByPointer s.systemProcess).map (·.enter (.creating s.systemProcess))
      | some argument => s.exReferenceObjectByHandle caller argument (some .process) .creating
    else none
  | .psCreateSystemThreadFast caller o stack =>
    if s.Runs caller ∧ s.Vacant o then
      if stack then
        ((s.obCreateThread o).pspInitializeThread o caller.process).map (·.enter (.holding o))
      else some ((s.obCreateThread o).enter (.holding o))
    else none
  | .refer caller argument expectedType =>
    if s.Runs caller then s.exReferenceObjectByHandle caller argument expectedType .holding
    else none
  | .osClose caller number => if s.Runs caller then s.obClose ⟨caller.process, number⟩ else none
  | .osTerminateThread caller argument =>
    if s.Runs caller then
      s.exReferenceObjectByHandle caller argument (some .thread) (.terminating caller)
    else none
  | .osSetSuspendedThread caller argument isSuspended =>
    if s.Runs caller then
      s.exReferenceObjectByHandle caller argument (some .thread) (.suspending · isSuspended)
    else none
  | .turn call answers => if call ∈ s.calls then s.turn call answers else none
  | .exit o process => s.kepCleanUpThread o process
  | .reap o =>
    if o ∈ s.reaperList then
      (s.object o).map fun x =>
        obpDeleteObject { s with reaperList := s.reaperList.erase o } o x
    else none

/-- The system process alone; it is permanent, and nothing refers to it. -/
def start (systemProcess : O) : Threads O where
  systemProcess := systemProcess
  object := Function.update (fun _ => none) systemProcess (some ⟨0, true, .process⟩)
  handles := []
  threadList := []
  calls := []
  reaperList := []

/-! ## What is promised of the counts -/

def handleCount (s : Threads O) (o : O) : Nat := (s.handles.map Prod.snd).count o

/-- How many references the calls have. -/
def useCount (s : Threads O) (o : O) : Nat := (s.calls.flatMap Call.references).count o

/-- A thread is counted once for each handle, once while it runs and once for each use; a process
once for each handle, each thread that is not cleaned up, and each use. What is referred to is there,
and what is not is deleted, or waits for it. A thread that `PspTerminateThread` is about to read is
still referred to. -/
structure Safe (s : Threads O) : Prop where
  thread : ∀ o x, s.object o = some x → x.body.type = .thread →
    x.pointerCount = s.handleCount o + (if o ∈ s.threadList.map Prod.fst then 1 else 0)
      + s.useCount o
  process : ∀ o x, s.object o = some x → x.body.type = .process →
    x.pointerCount = s.handleCount o + (s.threadList.map Prod.snd).count o + s.useCount o
  live : ∀ o, s.handleCount o ≠ 0 ∨ o ∈ s.threadList.map Prod.fst ∨
    o ∈ s.threadList.map Prod.snd ∨ s.useCount o ≠ 0 → s.object o ≠ none ∧ o ∉ s.reaperList
  deleted : ∀ o x, s.object o = some x → x.pointerCount = 0 → x.permanent ∨ o ∈ s.reaperList
  read : ∀ o p, .cleaned o p ∈ s.calls → ∃ x, s.object o = some x ∧ x.pointerCount ≠ 0

/-- The object of which a step drops a reference that was not taken in the same step. -/
def drops (s : Threads O) : Action O → Option O
  | .turn call answers =>
    match call with
    | .inserted _ o h => if answers.copied then some o else (s.entry h).map Prod.snd
    | .undoing _ o => some o
    | .holding o => if answers.handle.isNone then some o else none
    | .cleaning o _ => some o
    | .cleaned _ p => some p
    | .killing p =>
      ((s.handles.find? fun e => e.1.process = p).bind fun e => s.entry e.1).map Prod.snd
    | _ => none
  | .osClose caller number => (s.entry ⟨caller.process, number⟩).map Prod.snd
  | _ => none

/-- `PspTerminateThread` has dropped the thread's reference, or drops it with this step, and has not
read the thread since. -/
def Reads (s : Threads O) (a : Action O) (o : O) : Prop :=
  ∃ p, .cleaned o p ∈ s.calls ∨ ∃ answers, a = .turn (.cleaning o p) answers

/-- No service but those that give their reference back gets one, no thread is left without a kernel
stack, and no last reference of a thread is dropped that `PspTerminateThread` has still to read. -/
def Calm (s : Threads O) (a : Action O) : Prop :=
  (∀ o, s.drops a = some o → s.Reads a o → (s.object o).map Object.pointerCount ≠ some 1) ∧
    match a with
    | .osTerminateThread caller argument => s.resolve caller argument (some .thread) = none
    | .osSetSuspendedThread caller argument _ => s.resolve caller argument (some .thread) = none
    | .turn (.creating _) answers => answers.object.isSome → answers.stack = true
    | _ => True

end Threads

end Boron.Ps
