import Boron.Lib.Counted
import Boron.Lib.Run
import Mathlib.Algebra.Order.Group.Multiset
import Mathlib.Tactic.Abel

/-! # File objects and their FCBs (`io/file.c`, `io/parse.c`, `io/pipe.c`)

A file object refers to an FCB, which counts its references through the `Reference` and `Dereference`
methods of its driver and is freed with the last one. Besides file objects, FCBs are referred to by
directories, caches and callers (`held`). The methods `CreateObject` and `DeleteObject` are seen here
through the references of the FCB that they take and give back: `Ext2CreateObject` takes one, and the
other drivers' methods concern other objects.

What the outside decides (whether there is memory, what a `ParseDir` method finds, whether there is a
free handle) is part of a step. `crashed` is set by any use of an object or FCB that is not there. -/

namespace Boron.Io.FileObjects

/-- What `IO_DISPATCH_TABLE` says about opening: whether there is a `ParseDir` method, the flag
`DISPATCH_FLAG_DIRECTLY_OPENABLE`, and the references that `CreateObject` takes and `DeleteObject`
gives back, if there are such methods. -/
structure DispatchTable where
  parseDir : Bool
  directlyOpenable : Bool
  createObject : Option Nat
  deleteObject : Option Nat
  deriving DecidableEq

structure Fcb where
  dispatchTable : DispatchTable
  referenceCount : Nat
  deriving DecidableEq

def iopPipeDispatchTable : DispatchTable := ⟨false, false, none, none⟩

/-- What a `ParseDir` method does: it fails, finds an FCB in memory, or loads one. -/
inductive Parsed (F : Type)
  | failed
  | found (f : F)
  | loaded (f : F) (dispatchTable : DispatchTable)

/-- How a pipe is asked for, and what is there for it: memory for its FCB, memory for its file
object, and a free handle. -/
structure PipeCall (F : Type) where
  named : Bool
  fcb : Option F
  memory : Bool
  handle : Bool

/-- The FCBs in memory, all FCBs that were ever allocated, how often each was freed, the FCBs of the
file objects, and the FCBs of the other references. -/
structure Files (F : Type) where
  fcb : F → Option Fcb
  fcbs : List F
  freed : F → Nat
  fileObjects : List F
  held : List F
  crashed : Bool

namespace Files

variable {F : Type} [DecidableEq F]

/-! ## FCBs -/

def set (s : Files F) (f : F) (x : Option Fcb) : Files F :=
  { s with fcb := Function.update s.fcb f x }

/-- `IoAllocateFcb`, by a driver that counts its own reference. -/
def ioAllocateFcb (s : Files F) (f : F) (dispatchTable : DispatchTable) : Files F :=
  { s.set f (some ⟨dispatchTable, 1⟩) with fcbs := f :: s.fcbs }

def ioFreeFcb (s : Files F) (f : F) : Files F :=
  if (s.fcb f).isSome then
    { s.set f none with freed := Function.update s.freed f (s.freed f + 1) }
  else { s with crashed := true }

def ioReferenceFcb (s : Files F) (f : F) : Files F :=
  match s.fcb f with
  | some x => s.set f (some { x with referenceCount := x.referenceCount + 1 })
  | none => { s with crashed := true }

def ioDereferenceFcb (s : Files F) (f : F) : Files F :=
  match s.fcb f with
  | some x =>
    let s := s.set f (some { x with referenceCount := x.referenceCount - 1 })
    if x.referenceCount - 1 = 0 then s.ioFreeFcb f else s
  | none => { s with crashed := true }

/-- A method that takes so many references. -/
def take (s : Files F) (f : F) : Nat → Files F
  | 0 => s
  | n + 1 => (s.ioReferenceFcb f).take f n

/-- A method that gives so many references back. -/
def giveBack (s : Files F) (f : F) : Nat → Files F
  | 0 => s
  | n + 1 => (s.ioDereferenceFcb f).giveBack f n

/-! ## File objects -/

/-- `IoCreateFileObject`, with memory for the object or without; `false` if it fails. -/
def ioCreateFileObject (s : Files F) (f : F) (memory : Bool) : Bool × Files F :=
  if memory then
    match s.fcb f with
    | some x =>
      let s := (s.take f (x.dispatchTable.createObject.getD 0)).ioReferenceFcb f
      (true, { s with fileObjects := f :: s.fileObjects })
    | none => (false, { s with crashed := true })
  else (false, s)

/-- `IopDeleteFile`, for a file object on `f`. -/
def iopDeleteFile (s : Files F) (f : F) : Files F :=
  let s := { s with fileObjects := s.fileObjects.erase f }
  match s.fcb f with
  | some x => (s.giveBack f (x.dispatchTable.deleteObject.getD 0)).ioDereferenceFcb f
  | none => { s with crashed := true }

/-- `IopCallParse`, from a file object on `f`. -/
def iopCallParse (s : Files F) (f : F) (parsed : Parsed F) (memory : Bool) : Files F :=
  match s.fcb f with
  | some x =>
    if x.dispatchTable.parseDir then
      match parsed with
      | .failed => s
      | .found g => ((s.ioReferenceFcb g).ioCreateFileObject g memory).2
      | .loaded g dispatchTable =>
        ((s.ioAllocateFcb g dispatchTable).ioCreateFileObject g memory).2
    else if x.dispatchTable.directlyOpenable then (s.ioCreateFileObject f memory).2
    else s
  | none => { s with crashed := true }

/-- `IoCreatePipeObject`; `none` if it fails. -/
def ioCreatePipeObject (s : Files F) (c : PipeCall F) : Option F × Files F :=
  if c.named then (none, s)
  else
    match c.fcb with
    | none => (none, s)
    | some f =>
      match (s.ioAllocateFcb f iopPipeDispatchTable).ioCreateFileObject f c.memory with
      | (true, s) => (some f, s)
      | (false, s) => (none, s.ioFreeFcb f)

/-- `IoCreatePipe`, which does not look at the status of `IoCreatePipeObject`: without a file object
it goes on with a null pointer. -/
def ioCreatePipe (s : Files F) (c : PipeCall F) : Files F :=
  match s.ioCreatePipeObject c with
  | (some f, s) => if c.handle then s.ioDereferenceFcb f else (s.iopDeleteFile f).ioFreeFcb f
  | (none, s) => { s with crashed := true }

/-! ## The system -/

inductive Action (F : Type)
  /-- A driver makes an FCB, for a device or for a directory, cache or caller that refers to it. -/
  | create (f : F) (dispatchTable : DispatchTable)
  | reference (f : F)
  | dereference (f : F)
  /-- An open by path goes on from a file object on `f`. -/
  | open (f : F) (parsed : Parsed F) (memory : Bool)
  | openDevice (f : F) (memory : Bool)
  /-- The last reference of a file object on `f` is dropped, also because it gets no handle. -/
  | deleteFile (f : F)
  | createPipe (c : PipeCall F)

/-- The FCB that a step allocates is a new one. -/
def fresh (s : Files F) : Action F → Bool
  | .create f _ | .open _ (.loaded f _) _ | .createPipe ⟨_, some f, _, _⟩ => f ∉ s.fcbs
  | _ => true

/-- What a `ParseDir` method finds in memory is referred to by its directory or by file objects. -/
def finds (s : Files F) : Parsed F → Bool
  | .found f => f ∈ s.held ∨ f ∈ s.fileObjects
  | _ => true

/-- A step; references are added by those who have one, and given back by those who hold them. -/
def step (s : Files F) (a : Action F) : Option (Files F) :=
  if s.crashed || !s.fresh a then none
  else
    match a with
    | .create f dispatchTable =>
      some { s.ioAllocateFcb f dispatchTable with held := f :: s.held }
    | .reference f =>
      if f ∈ s.held ∨ f ∈ s.fileObjects then
        some { s.ioReferenceFcb f with held := f :: s.held }
      else none
    | .dereference f =>
      if f ∈ s.held then some (ioDereferenceFcb { s with held := s.held.erase f } f) else none
    | .open f parsed memory =>
      if f ∈ s.fileObjects ∧ s.finds parsed then some (s.iopCallParse f parsed memory) else none
    | .openDevice f memory =>
      if f ∈ s.held then some (s.ioCreateFileObject f memory).2 else none
    | .deleteFile f => if f ∈ s.fileObjects then some (s.iopDeleteFile f) else none
    | .createPipe c => some (s.ioCreatePipe c)

def start : Files F where
  fcb := fun _ => none
  fcbs := []
  freed := fun _ => 0
  fileObjects := []
  held := []
  crashed := false

/-! ## What is promised of the FCBs -/

/-- An FCB is counted once for each file object and each other reference; as long as there is one it
is not freed, and with the last one it is freed, once. -/
structure Safe (s : Files F) : Prop where
  counted : ∀ f x, s.fcb f = some x → x.referenceCount = s.fileObjects.count f + s.held.count f
  live : ∀ f ∈ s.fcbs, f ∈ s.fileObjects ∨ f ∈ s.held → s.fcb f ≠ none ∧ s.freed f = 0
  freed : ∀ f ∈ s.fcbs, f ∉ s.fileObjects → f ∉ s.held → s.fcb f = none ∧ s.freed f = 1
  uncrashed : s.crashed = false

/-- File objects on the FCB take no reference but their own. -/
def Plain (s : Files F) (f : F) : Prop :=
  ∀ x, s.fcb f = some x → x.dispatchTable.createObject.getD 0 = 0 ∧
    x.dispatchTable.deleteObject.getD 0 = 0

/-- No `ParseDir` method finds anything, file objects are created on plain FCBs, and a pipe object
can be created. -/
def Calm (s : Files F) : Action F → Prop
  | .open f parsed _ => ∀ x, s.fcb f = some x → x.dispatchTable.parseDir = true → parsed = .failed
  | .openDevice f memory => memory = true → s.Plain f
  | .createPipe c => c.named = false ∧ c.fcb.isSome ∧ c.memory = true
  | _ => True

end Files

end Boron.Io.FileObjects
