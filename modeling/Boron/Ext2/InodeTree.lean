import Boron.Lib.Mutex
import Boron.Lib.Run
import Boron.Lib.SearchTree

/-! # The inodes in memory (`ext2fs/source/inode.c`)

A file system keeps the FCBs of its inodes in a tree, by inode number, under `InodeTreeMutex`. The
tree holds no reference: `Ext2OpenInode` gives its caller one, callers add and drop references with
`Ext2ReferenceInode` and `Ext2DereferenceInode`, and whoever drops the last one frees the FCB.

Here any number of threads are in these calls, on any inodes, and their steps interleave. A piece of
code under the mutex is one step, except that the lookup and the counter's atomic addition are two. A
reference that `Ext2OpenInode` has returned may be passed on between threads, so what is counted is
how many references of an FCB the callers have (`given`). The counter's 64 bits are more than there
can be references. -/

namespace Boron.Ext2

open Function

/-- The FCB of an inode; `fcb` is its own place in the pool, which no other FCB gets. -/
structure Fcb where
  fcb : Nat
  inodeNumber : Nat
  deriving DecidableEq

/-- Where a thread is, inside one of the calls. `retry` is what follows on `Ext2FreeInode`: another
lookup of the inode, in an `Ext2OpenInode` that was late with its insertion, or the return. -/
inductive Call
  | idle
  /-- In `Ext2OpenInode`, about to acquire the mutex. -/
  | opening (inodeNumber : Nat)
  /-- At `Retry`, with the mutex. -/
  | lookingUp (inodeNumber : Nat)
  /-- The lookup has found the FCB, whose counter is not raised yet. -/
  | referencing (f : Fcb)
  /-- About to release the mutex and return the FCB. -/
  | returning (f : Fcb)
  /-- About to release the mutex after a lookup that found nothing. -/
  | missing (inodeNumber : Nat)
  | creating (inodeNumber : Nat)
  | reading (f : Fcb)
  /-- About to acquire the mutex once more. -/
  | adding (f : Fcb)
  | inserting (f : Fcb)
  /-- In `Ext2FreeInode`, before it looks at `AddedToInodeTree`. -/
  | freeing (f : Fcb) (retry : Option Nat)
  /-- About to acquire the mutex there. -/
  | unhooking (f : Fcb) (retry : Option Nat)
  | removing (f : Fcb) (retry : Option Nat)
  /-- About to call `IoFreeFcb`. -/
  | releasing (f : Fcb) (retry : Option Nat)
  deriving DecidableEq

/-- What a step gets from outside: whether there is memory for an FCB, and whether the device could
be read. -/
structure Answers where
  memory : Bool
  read : Bool

/-- The tree in the order of its keys, the FCBs' fields, and where each thread is. `fcbs` holds all
FCBs that were ever allocated, `given` counts the references that callers have, and `freed` the calls
of `IoFreeFcb` on an FCB. -/
structure InodeCache (T : Type) where
  inodeCount : Nat
  inodeTree : List Fcb
  inodeTreeMutex : Mutex T
  referenceCount : Fcb → Nat
  addedToInodeTree : Fcb → Bool
  fcbs : List Fcb
  given : Fcb → Nat
  freed : Fcb → Nat
  thread : T → Call

namespace InodeCache

variable {T : Type} [DecidableEq T]

def goto (s : InodeCache T) (t : T) (call : Call) : InodeCache T :=
  { s with thread := update s.thread t call }

/-- `AcquireInodeTreeMutex`; `none` while another thread holds it. -/
def acquire (s : InodeCache T) (t : T) (call : Call) : Option (InodeCache T) :=
  (s.inodeTreeMutex.acquire t).map fun m => { s.goto t call with inodeTreeMutex := m }

/-- `ReleaseInodeTreeMutex`. -/
def release (s : InodeCache T) (t : T) (call : Call) : Option (InodeCache T) :=
  (s.inodeTreeMutex.release t).map fun m => { s.goto t call with inodeTreeMutex := m }

/-- `LookUpItemRbTree`. -/
def lookUp (s : InodeCache T) (inodeNumber : Nat) : Option Fcb :=
  s.inodeTree.find? fun f => f.inodeNumber = inodeNumber

def ext2ReferenceInode (s : InodeCache T) (f : Fcb) : InodeCache T :=
  { s with referenceCount := update s.referenceCount f (s.referenceCount f + 1) }

/-- `Ext2DereferenceInode`, up to the `Ext2FreeInode` that it may call. -/
def ext2DereferenceInode (s : InodeCache T) (t : T) (f : Fcb) : InodeCache T :=
  let value := s.referenceCount f - 1
  { s.goto t (if value = 0 then .freeing f none else .idle) with
    referenceCount := update s.referenceCount f value }

def newFcb (s : InodeCache T) (inodeNumber : Nat) : Fcb := ⟨s.fcbs.length, inodeNumber⟩

/-- `Ext2CreateFcb`, with memory for the FCB. -/
def ext2CreateFcb (s : InodeCache T) (t : T) (inodeNumber : Nat) : InodeCache T :=
  let f := s.newFcb inodeNumber
  { s.goto t (.reading f) with
    fcbs := f :: s.fcbs
    referenceCount := update s.referenceCount f 1
    addedToInodeTree := update s.addedToInodeTree f false }

/-- A reference of the FCB is returned to the caller. -/
def give (s : InodeCache T) (f : Fcb) : InodeCache T :=
  { s with given := update s.given f (s.given f + 1) }

/-- The caller parts with a reference of the FCB. -/
def take (s : InodeCache T) (f : Fcb) : InodeCache T :=
  { s with given := update s.given f (s.given f - 1) }

def ioFreeFcb (s : InodeCache T) (f : Fcb) : InodeCache T :=
  { s with freed := update s.freed f (s.freed f + 1) }

/-- What follows on `Ext2FreeInode`. -/
def resume : Option Nat → Call
  | none => .idle
  | some inodeNumber => .lookingUp inodeNumber

/-- The next step of the call a thread is in; `none` if it has to wait. -/
def turn (s : InodeCache T) (t : T) (answers : Answers) : Option (InodeCache T) :=
  match s.thread t with
  | .idle => none
  | .opening n => s.acquire t (.lookingUp n)
  | .lookingUp n =>
    match s.lookUp n with
    | some f => some (s.goto t (.referencing f))
    | none => some (s.goto t (.missing n))
  | .referencing f => some ((s.ext2ReferenceInode f).goto t (.returning f))
  | .returning f => (s.give f).release t .idle
  | .missing n => s.release t (.creating n)
  | .creating n => some (if answers.memory then s.ext2CreateFcb t n else s.goto t .idle)
  | .reading f => some (if answers.read then s.goto t (.adding f) else s.ext2DereferenceInode t f)
  | .adding f => s.acquire t (.inserting f)
  | .inserting f =>
    match insertItem Fcb.inodeNumber s.inodeTree f with
    | some cursor => some { s.goto t (.returning f) with inodeTree := cursor.toTree }
    | none => some (s.goto t (.freeing f (some f.inodeNumber)))
  | .freeing f retry =>
    if s.addedToInodeTree f then
      some { s.goto t (.unhooking f retry) with
        addedToInodeTree := update s.addedToInodeTree f false }
    else some (s.goto t (.releasing f retry))
  | .unhooking f retry => s.acquire t (.removing f retry)
  | .removing f retry =>
    release { s with inodeTree := s.inodeTree.filter (· ≠ f) } t (.releasing f retry)
  | .releasing f retry => some ((s.ioFreeFcb f).goto t (resume retry))

/-- A thread starts a call, or takes the next step of the one it is in. References are added to FCBs
and dropped from FCBs that the callers have references of. -/
inductive Action (T : Type)
  | ext2OpenInode (t : T) (inodeNumber : Nat)
  | ext2ReferenceInode (t : T) (f : Fcb)
  | ext2DereferenceInode (t : T) (f : Fcb)
  | turn (t : T) (answers : Answers)

def step (s : InodeCache T) : Action T → Option (InodeCache T)
  | .ext2OpenInode t n =>
    if s.thread t = .idle then
      some (if s.inodeCount ≤ n then s else s.goto t (.opening n))
    else none
  | .ext2ReferenceInode t f =>
    if s.thread t = .idle ∧ s.given f ≠ 0 then some ((s.ext2ReferenceInode f).give f) else none
  | .ext2DereferenceInode t f =>
    if s.thread t = .idle ∧ s.given f ≠ 0 then some ((s.take f).ext2DereferenceInode t f) else none
  | .turn t answers => s.turn t answers

/-- A file system whose inodes nobody has opened yet. -/
def start (inodeCount : Nat) : InodeCache T where
  inodeCount := inodeCount
  inodeTree := []
  inodeTreeMutex := Mutex.free
  referenceCount := fun _ => 0
  addedToInodeTree := fun _ => false
  fcbs := []
  given := fun _ => 0
  freed := fun _ => 0
  thread := fun _ => .idle

/-! ## What is promised of the inodes -/

/-- The FCB that a call loads, or is about to free. -/
def works : Call → Option Fcb
  | .reading f | .adding f | .inserting f | .freeing f _ | .unhooking f _ | .removing f _
  | .releasing f _ => some f
  | _ => none

/-- The FCBs of the tree are live and have different inode numbers, the callers' references are
counted and their FCBs live, a count that is about to be raised is not zero, an FCB is freed at most
once, and it is freed when no caller has a reference and no call is busy with it, and a thread that
is in none of the calls does not hold the mutex. -/
structure Safe (s : InodeCache T) : Prop where
  unique : ∀ f ∈ s.inodeTree, ∀ g ∈ s.inodeTree, f.inodeNumber = g.inodeNumber → f = g
  live : ∀ f ∈ s.inodeTree, s.freed f = 0
  returned : ∀ f, s.given f ≠ 0 → s.freed f = 0 ∧ s.given f ≤ s.referenceCount f
  raised : ∀ t f, s.thread t = .referencing f → s.freed f = 0 ∧ s.referenceCount f ≠ 0
  once : ∀ f, s.freed f ≤ 1
  freed : ∀ f ∈ s.fcbs, s.given f = 0 → (∀ t, works (s.thread t) ≠ some f) →
    (∀ t, s.thread t ≠ .returning f) → s.freed f = 1
  unlocked : ∀ t, s.thread t = .idle → s.inodeTreeMutex.depth t = 0

/-- The last reference of an FCB that is in the tree is not dropped. -/
def Calm (s : InodeCache T) : Action T → Prop
  | .ext2DereferenceInode _ f => ¬ (f ∈ s.inodeTree ∧ s.referenceCount f = 1)
  | _ => True

end InodeCache

end Boron.Ext2
