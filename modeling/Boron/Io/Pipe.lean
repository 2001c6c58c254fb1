import Boron.Lib.Run
import Boron.Io.Mdl

/-! # Pipes (`io/pipe.c`)

A pipe is a ring of bytes under a mutex. `IopReadPipe` and `IopWritePipe` loop while they hold the
mutex, moving what they can between the ring and the caller's buffer; a call that cannot go on
releases the mutex, sleeps on an event and comes back. Whether a wait ends well or is interrupted,
and when, is up to the scheduler.

A state of the system is the pipe, the holder of its mutex and every call, each where it stands in
the code. One action is one wait that ends or one turn of a loop, so any number of calls interleave
wherever the mutex lets them. Positions are natural numbers: the sum of two positions of a buffer
that exists in memory does not wrap around `size_t`. -/

namespace Boron.Io

/-! ## The pipe -/

structure Pipe where
  referenceCount : Nat
  head : Nat
  tail : Nat
  bufferSize : Nat
  endReadNow : Bool
  buffer : Nat → Byte

/-- `IopInitializePipe`, on an extension that `IoAllocateFcb` has cleared. -/
def iopInitializePipe (bufferSize : Nat) : Pipe := ⟨1, 0, 0, bufferSize, false, fun _ => 0⟩

/-- The `IO_RW_*` flags that pipes look at. -/
structure RwFlags where
  nonblock : Bool
  nonblockUnlessEmpty : Bool
  finishOnNewline : Bool
  terminateRead : Bool
  deriving DecidableEq

inductive IoStatus
  | success
  | endOfFile
  | blockingOperation
  | interrupted
  deriving DecidableEq

inductive Direction
  | read
  | write
  deriving DecidableEq

/-- Where a call stands: waiting for the mutex, in its loop with the mutex held, asleep on
`QueueEmptyEvent` or `QueueFullEvent`, or returned. -/
inductive Phase
  | entering
  | looping
  | sleeping
  | finished (status : IoStatus)
  deriving DecidableEq

/-- A call of `IopReadPipe` or `IopWritePipe`: its arguments, the local variables `ByteCount` and
`BytesRead` or `BytesWritten`, and the byte count in the I/O status block. -/
structure Call where
  direction : Direction
  flags : RwFlags
  mdl : Mdl
  byteCount : Nat
  bytes : Nat
  iosbBytes : Nat
  phase : Phase

/-- How a turn of the loop ends. -/
inductive Next
  | again
  | sleep
  | finish (status : IoStatus)

/-- What a turn of the loop leaves: the pipe, the call, and the bytes moved. -/
structure Turn where
  pipe : Pipe
  call : Call
  moved : List Byte
  next : Next

namespace Pipe

/-- The scan for a newline in the `n` bytes about to be read: how many bytes the read takes. -/
def scanNewline (p : Pipe) : (n i j : Nat) → Option Nat
  | 0, _, _ => none
  | n + 1, i, j =>
    let j := if p.bufferSize ≤ j then 0 else j
    let chr := p.buffer j
    if chr ≠ 10 ∧ chr ≠ 13 then p.scanNewline n (i + 1) (j + 1) else some (i + 1)

/-- The bytes a read takes from the ring, copied in one part or in two. -/
def copyOut (p : Pipe) (mdl : Mdl) (bytesRead readSize tailAfterRead : Nat) : Mdl × List Byte :=
  if p.tail ≤ tailAfterRead then
    let chunk := readAt p.buffer p.tail readSize
    (mdl.mmCopyIntoMdl bytesRead chunk, chunk)
  else
    let tailSize := p.bufferSize - p.tail
    let headSize := readSize - tailSize
    let first := readAt p.buffer p.tail tailSize
    let second := readAt p.buffer 0 headSize
    let mdl := if tailSize = 0 then mdl else mdl.mmCopyIntoMdl bytesRead first
    let mdl := if headSize = 0 then mdl else mdl.mmCopyIntoMdl (bytesRead + tailSize) second
    (mdl, first ++ second)

/-- The part of the read loop that finds data. -/
def readData (p : Pipe) (c : Call) : Turn :=
  let availableData :=
    if p.tail ≤ p.head then p.head - p.tail else p.head + p.bufferSize - p.tail
  let readSize := c.byteCount - c.bytes
  let readSize := if availableData < readSize then availableData else readSize
  let newline := if c.flags.finishOnNewline then p.scanNewline readSize 0 p.tail else none
  let byteCount := newline.elim c.byteCount (c.bytes + ·)
  let readSize := newline.getD readSize
  let tailAfterRead := p.tail + readSize
  let tailAfterRead :=
    if p.bufferSize ≤ tailAfterRead then tailAfterRead - p.bufferSize else tailAfterRead
  let (mdl, chunk) := p.copyOut c.mdl c.bytes readSize tailAfterRead
  { pipe := { p with tail := tailAfterRead }
    call := { c with mdl := mdl, byteCount := byteCount, bytes := c.bytes + readSize }
    moved := chunk
    next := .again }

/-- One turn of the loop of `IopReadPipe`. -/
def readTurn (p : Pipe) (c : Call) : Turn :=
  if c.bytes < c.byteCount then
    if p.head = p.tail then
      if p.referenceCount = 1 then ⟨p, c, [], .finish .endOfFile⟩
      else if c.flags.nonblock || (c.flags.nonblockUnlessEmpty && c.bytes != 0) then
        ⟨p, c, [], .finish .blockingOperation⟩
      else if p.endReadNow then ⟨{ p with endReadNow := false }, c, [], .finish .endOfFile⟩
      else ⟨p, c, [], .sleep⟩
    else p.readData c
  else ⟨p, c, [], .finish .success⟩

/-- The bytes a write puts into the ring, copied in one part or in two. -/
def copyIn (p : Pipe) (mdl : Mdl) (bytesWritten writeSize headAfterWrite : Nat) :
    (Nat → Byte) × List Byte :=
  if p.head ≤ headAfterWrite then
    let chunk := mdl.mmCopyFromMdl bytesWritten writeSize
    (writeAt p.buffer p.head chunk, chunk)
  else
    let headSize := p.bufferSize - p.head
    let tailSize := writeSize - headSize
    let first := mdl.mmCopyFromMdl bytesWritten headSize
    let second := mdl.mmCopyFromMdl (bytesWritten + headSize) tailSize
    let buffer := if headSize = 0 then p.buffer else writeAt p.buffer p.head first
    let buffer := if tailSize = 0 then buffer else writeAt buffer 0 second
    (buffer, first ++ second)

def freeSpace (p : Pipe) : Nat :=
  if p.tail ≤ p.head then p.bufferSize - 1 - (p.head - p.tail) else p.tail - p.head - 1

/-- The part of the write loop that finds free space. -/
def writeData (p : Pipe) (c : Call) : Turn :=
  let writeSize := c.byteCount - c.bytes
  let writeSize := if p.freeSpace < writeSize then p.freeSpace else writeSize
  let headAfterWrite := p.head + writeSize
  let headAfterWrite :=
    if p.bufferSize ≤ headAfterWrite then headAfterWrite % p.bufferSize else headAfterWrite
  let (buffer, chunk) := p.copyIn c.mdl c.bytes writeSize headAfterWrite
  { pipe := { p with head := headAfterWrite, buffer := buffer }
    call := { c with bytes := c.bytes + writeSize }
    moved := chunk
    next := .again }

/-- One turn of the loop of `IopWritePipe`. -/
def writeTurn (p : Pipe) (c : Call) : Turn :=
  if c.bytes < c.byteCount then
    let c := { c with iosbBytes := c.bytes }
    if p.freeSpace = 0 then
      if p.referenceCount = 1 then ⟨p, c, [], .finish .endOfFile⟩
      else if c.flags.nonblock then ⟨p, c, [], .finish .blockingOperation⟩
      else ⟨p, c, [], .sleep⟩
    else p.writeData c
  else ⟨{ p with endReadNow := p.endReadNow || c.flags.terminateRead }, c, [], .finish .success⟩

def turn (p : Pipe) (c : Call) : Turn :=
  match c.direction with
  | .read => p.readTurn c
  | .write => p.writeTurn c

end Pipe

/-! ## Any number of calls -/

variable {T : Type}

/-- The pipe, the call that holds its mutex, every call, and the bytes that calls have taken out
of the pipe and put into it, each with the call that did. -/
structure PipeSystem (T : Type) where
  pipe : Pipe
  mutex : Option T
  call : T → Call
  delivered : List (T × Byte)
  accepted : List (T × Byte)

inductive PipeAction (T : Type)
  /-- The wait for the mutex ends; it is interrupted unless `acquired`. -/
  | enter (t : T) (acquired : Bool)
  | turn (t : T)
  /-- The wait for an event ends; it is interrupted unless `signaled`. -/
  | wake (t : T) (signaled : Bool)
  /-- `IopReferencePipe` and `IopDereferencePipe` by whoever has the file object. -/
  | recount (referenceCount : Nat)

/-- What `IopReadPipe` stores in the status block when it returns; a write has done so already. -/
def Call.finish (c : Call) (status : IoStatus) : Call :=
  match c.direction with
  | .read => { c with phase := .finished status, iosbBytes := c.bytes }
  | .write => { c with phase := .finished status }

namespace PipeSystem

variable [DecidableEq T]

def setCall (s : PipeSystem T) (t : T) (c : Call) : PipeSystem T :=
  { s with call := Function.update s.call t c }

/-- The loop goes on, or the mutex is released. -/
def settle (s : PipeSystem T) (t : T) (c : Call) : Next → PipeSystem T
  | .again => s.setCall t c
  | .sleep => { s.setCall t { c with phase := .sleeping } with mutex := none }
  | .finish status => { s.setCall t (c.finish status) with mutex := none }

def logMoved (s : PipeSystem T) (t : T) (direction : Direction) (moved : List Byte) :
    PipeSystem T :=
  match direction with
  | .read => { s with delivered := s.delivered ++ moved.map (t, ·) }
  | .write => { s with accepted := s.accepted ++ moved.map (t, ·) }

def step (s : PipeSystem T) : PipeAction T → Option (PipeSystem T)
  | .enter t acquired =>
    if (s.call t).phase = .entering then
      if acquired then
        if s.mutex = none then
          some { s.setCall t { s.call t with phase := .looping } with mutex := some t }
        else none
      else some (s.setCall t ((s.call t).finish .interrupted))
    else none
  | .turn t =>
    if (s.call t).phase = .looping ∧ s.mutex = some t then
      let r := s.pipe.turn (s.call t)
      some (({ s with pipe := r.pipe }.logMoved t (s.call t).direction r.moved).settle t r.call
        r.next)
    else none
  | .wake t signaled =>
    if (s.call t).phase = .sleeping then
      if signaled then some (s.setCall t { s.call t with phase := .entering })
      else some (s.setCall t ((s.call t).finish .interrupted))
    else none
  | .recount referenceCount =>
    some { s with pipe := { s.pipe with referenceCount := referenceCount } }

end PipeSystem

end Boron.Io
