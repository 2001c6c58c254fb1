import Boron.Lib.Run
import Mathlib.Algebra.Ring.Nat

/-! # Queue pairs (`stornvme/queue.c`, `stornvme/commands.c`, `stornvme/enum.c`)

A queue control block has a submission ring, which the driver writes and the controller reads, and a
completion ring, which goes the other way. Each side tells the other how far it has read or written
through a doorbell; new completions are told from old ones by their phase. `NvmeSend` lets at most as
many commands into a queue as its table `Entries` has places, and `NvmeDpc` hands the completions to
the entry pairs.

A call of `NvmeSend` that has passed the semaphore is known by its number, and so are its entry pair,
its command and the completion of that command. The code under the queue's spin lock is one step, but
for `NvmeDpc`, whose passes are steps of their own, since the controller does not wait for the lock.
`crashed` is set by a failed assertion and by the use of an entry that is not there. -/

namespace Boron.Nvme

open Function

def pageSize : Nat := 4096

/-- `sizeof(NVME_SUBMISSION_QUEUE_ENTRY)`, and that of the completion queue's entries. -/
def submissionEntrySize : Nat := 64
def completionEntrySize : Nat := 16

def submissionQueueSize : Nat := pageSize / submissionEntrySize

def completionQueueSize : Nat := pageSize / completionEntrySize

/-- `ARRAY_COUNT(Qcb->Entries)`. -/
def entryCount : Nat := pageSize / submissionEntrySize

/-! ## Setting up -/

/-- The `EntryCount`s of the driver's rings, and the sizes that the controller was told. -/
structure Sizes where
  submission : Nat
  completion : Nat
  toldSubmission : Nat
  toldCompletion : Nat
  deriving DecidableEq

/-- `ContExtension->MaximumQueueEntries`. The field `MaxQueueEntriesSupported` is a signed one. -/
def maximumQueueEntries (mqes : BitVec 16) : Nat := (mqes.signExtend 64 + 1).toNat

inductive QueueKind
  | admin
  | io
  deriving DecidableEq

/-- The size that a controller takes from a 16-bit field that holds one less. -/
def toldSize (n : Nat) : Nat := (n + 2 ^ 16 - 1) % 2 ^ 16 + 1

/-- The counts that `NvmeSetupQueue` is called with. -/
def nvmeSetupQueue (submissionQueueCount completionQueueCount toldSubmission toldCompletion : Nat) :
    Sizes :=
  ⟨submissionQueueCount, completionQueueCount, toldSubmission, toldCompletion⟩

/-- What `NvmePciDeviceEnumerated` does for the admin queue, whose sizes go to `AdminQueueAttributes`,
and `NvmeInitializeIoQueue` for the others. -/
def setUp (kind : QueueKind) (mqes : BitVec 16) : Sizes :=
  let maxComQueueSize := min (maximumQueueEntries mqes) completionQueueSize
  let maxSubQueueSize := min (maximumQueueEntries mqes) submissionQueueSize
  match kind with
  | .admin =>
    nvmeSetupQueue maxSubQueueSize maxComQueueSize (toldSize submissionQueueSize)
      (toldSize completionQueueSize)
  | .io =>
    nvmeSetupQueue maxComQueueSize maxSubQueueSize (toldSize maxSubQueueSize)
      (toldSize maxComQueueSize)

/-! ## The system -/

/-- An entry of the submission ring; `call` is the call that has written it, if any has. -/
structure Command where
  commandIdentifier : Nat
  call : Option Nat
  deriving DecidableEq

/-- An entry of the completion ring. -/
structure Completion where
  commandIdentifier : Nat
  phase : Bool
  call : Option Nat
  deriving DecidableEq

def Completion.command (c : Completion) : Command := ⟨c.commandIdentifier, c.call⟩

structure Queue where
  sizes : Sizes
  /-- The count of the semaphore, the number of calls that have passed it, and those of them that
  have not submitted their command yet. -/
  semaphore : Nat
  calls : Nat
  admitted : List Nat
  /-- `Entries`, and the two `QUEUE_ACCESS_BLOCK`s. -/
  entries : Nat → Option Nat
  submissionIndex : Nat
  completionIndex : Nat
  completionPhase : Bool
  /-- The rings. -/
  submissionRing : Nat → Command
  completionRing : Nat → Completion
  /-- The controller: the doorbells, its ends of the rings, the phase that it writes, and the commands
  that it has taken and not completed. -/
  submissionDoorBell : Nat
  completionDoorBell : Nat
  head : Nat
  tail : Nat
  phase : Bool
  accepted : List Command
  /-- `Count` of the DPC that is running. -/
  dpc : Option Nat
  /-- What has happened: all commands that were submitted, how many of them the controller has taken,
  all completions that it has posted, and for each completion that was handed out the call whose
  entry pair has received it (and whose event was set) and the call that it is the completion of. -/
  submissions : List Command
  consumed : Nat
  completions : List Completion
  received : List (Nat × Option Nat)
  overwritten : Bool
  crashed : Bool

namespace Queue

/-- A queue that was just set up, in zeroed memory. `NvmeSetupQueue` asserts that no count is zero. -/
def start (kind : QueueKind) (mqes : BitVec 16) : Queue where
  sizes := setUp kind mqes
  semaphore := entryCount
  calls := 0
  admitted := []
  entries := fun _ => none
  submissionIndex := 0
  completionIndex := 0
  completionPhase := true
  submissionRing := fun _ => ⟨0, none⟩
  completionRing := fun _ => ⟨0, false, none⟩
  submissionDoorBell := 0
  completionDoorBell := 0
  head := 0
  tail := 0
  phase := true
  accepted := []
  dpc := none
  submissions := []
  consumed := 0
  completions := []
  received := []
  overwritten := false
  crashed := (setUp kind mqes).submission = 0 ∨ (setUp kind mqes).completion = 0

/-! ## The driver -/

/-- A call of `NvmeSend` passes the semaphore. -/
def passSemaphore (s : Queue) : Option Queue :=
  if s.semaphore = 0 then none
  else
    some { s with
      semaphore := s.semaphore - 1
      calls := s.calls + 1
      admitted := s.calls :: s.admitted }

/-- The first place of `Entries` that is free. -/
def freeIndex (s : Queue) : Option Nat := (List.range entryCount).find? fun i => s.entries i = none

/-- Whether the submission slot that is next holds a command that the controller has not taken. -/
def slotInUse (s : Queue) : Bool :=
  s.submissionRing s.submissionIndex ∈ s.submissions.drop s.consumed

/-- The locked part of `NvmeSend`. -/
def submit (s : Queue) (call : Nat) : Option Queue :=
  if s.dpc ≠ none ∨ call ∉ s.admitted then none
  else
    match s.freeIndex with
    | none => some { s with crashed := true }
    | some index =>
      let command : Command := ⟨index, some call⟩
      let next := (s.submissionIndex + 1) % s.sizes.submission
      some { s with
        admitted := s.admitted.erase call
        entries := update s.entries index (some call)
        submissionRing := update s.submissionRing s.submissionIndex command
        submissionIndex := next
        submissionDoorBell := next
        submissions := s.submissions ++ [command]
        overwritten := s.overwritten || s.slotInUse }

/-- `NvmeDpc` takes the lock. -/
def interrupt (s : Queue) : Option Queue :=
  if s.dpc ≠ none then none else some { s with dpc := some 0 }

/-- Whether the next completion slot has the phase that the driver waits for. -/
def isPosted (s : Queue) : Bool :=
  (s.completionRing s.completionIndex).phase = s.completionPhase

/-- A pass of the loop of `NvmeDpc`. -/
def receive (s : Queue) : Option Queue :=
  match s.dpc with
  | none => none
  | some count =>
    if !s.isPosted then none
    else
      let completion := s.completionRing s.completionIndex
      let submissionId := completion.commandIdentifier
      match if submissionId < entryCount then s.entries submissionId else none with
      | none => some { s with crashed := true }
      | some call =>
        let next := (s.completionIndex + 1) % s.sizes.completion
        some { s with
          received := s.received ++ [(call, completion.call)]
          entries := update s.entries submissionId none
          semaphore := s.semaphore + 1
          completionIndex := next
          completionPhase := if next = 0 then !s.completionPhase else s.completionPhase
          dpc := some (count + 1) }

/-- The end of `NvmeDpc`. -/
def finish (s : Queue) : Option Queue :=
  match s.dpc with
  | none => none
  | some count =>
    if s.isPosted then none
    else
      some { s with
        completionDoorBell := if count ≠ 0 then s.completionIndex else s.completionDoorBell
        dpc := none }

/-! ## The controller -/

/-- The controller takes the next command. -/
def consume (s : Queue) : Option Queue :=
  if s.head = s.submissionDoorBell then none
  else
    some { s with
      accepted := s.accepted ++ [s.submissionRing s.head]
      head := (s.head + 1) % s.sizes.toldSubmission
      consumed := s.consumed + 1 }

/-- The completion ring has no slot that the controller may write to. -/
def isFull (s : Queue) : Bool :=
  (s.tail + 1) % s.sizes.toldCompletion = s.completionDoorBell

/-- The controller completes one of the commands that it has taken. -/
def post (s : Queue) (command : Command) : Option Queue :=
  if command ∉ s.accepted ∨ s.isFull then none
  else
    let completion : Completion := ⟨command.commandIdentifier, s.phase, command.call⟩
    let next := (s.tail + 1) % s.sizes.toldCompletion
    some { s with
      accepted := s.accepted.erase command
      completionRing := update s.completionRing s.tail completion
      tail := next
      phase := if next = 0 then !s.phase else s.phase
      completions := s.completions ++ [completion] }

inductive Action
  | passSemaphore
  | submit (call : Nat)
  | interrupt
  | receive
  | finish
  | consume
  | post (command : Command)

def step (s : Queue) (a : Action) : Option Queue :=
  if s.crashed then none
  else
    match a with
    | .passSemaphore => s.passSemaphore
    | .submit call => s.submit call
    | .interrupt => s.interrupt
    | .receive => s.receive
    | .finish => s.finish
    | .consume => s.consume
    | .post command => s.post command

/-! ## What the protocol promises -/

/-- The commands that are on their way: submitted and not taken, taken and not completed, and
completed without the driver having seen it. -/
def inFlight (s : Queue) : List Command :=
  s.submissions.drop s.consumed ++ s.accepted
    ++ (s.completions.drop s.received.length).map Completion.command

/-- Neither the controller nor the DPC has anything left to do. -/
structure Idle (s : Queue) : Prop where
  head : s.head = s.submissionDoorBell
  post : s.accepted = [] ∨ s.isFull = true
  dpc : s.dpc = none
  posted : s.isPosted = false

structure Safe (s : Queue) : Prop where
  crashed : s.crashed = false
  sizes : s.sizes.submission = s.sizes.toldSubmission ∧ s.sizes.completion = s.sizes.toldCompletion
  fits : s.sizes.submission * submissionEntrySize ≤ pageSize ∧
    s.sizes.completion * completionEntrySize ≤ pageSize
  distinct : (s.inFlight.map Command.commandIdentifier).Nodup
  overwritten : s.overwritten = false
  /-- Completions are received by the calls they belong to, by each one once. -/
  own : ∀ x ∈ s.received, x.2 = some x.1
  once : (s.received.map Prod.fst).Nodup
  /-- No command is forgotten. -/
  all : s.Idle → ∀ c ∈ s.submissions, ∃ call, c.call = some call ∧ call ∈ s.received.map Prod.fst

end Queue

end Boron.Nvme
