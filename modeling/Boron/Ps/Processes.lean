import Boron.Ob.References

/-! # Creating a process (`ps/process.c`, `ps/pslist.c`)

`OSCreateProcess` makes an object through `ExCreateObjectUserCall`, whose create method sets up a page
map, an entry in the process list and a handle table. A process and its handle table go by the address
bits of its object. `none` is a call that does not come back: an assertion fails, or it uses an object
or a table that is not there.

`allocated` and `freed` are no data of the code: they say what was allocated for a process and what of
it was given back. The address space of a process is empty until it has a thread, so the page map is
all that is left of it here. -/

namespace Boron.Ps

open Ex Ob Function

/-- The types that the creation of a process tells apart. -/
inductive ObjectKind
  | process
  | directory
  | other
  deriving DecidableEq

/-- The status codes: those of handle tables, and two more. -/
inductive ProcessStatus
  | handle (status : HandleStatus)
  | typeMismatch
  | fault
  deriving DecidableEq

/-- What is used of `EPROCESS`. -/
structure EProcess where
  pageMap : Nat
  processId : Nat
  deriving DecidableEq

/-- What is allocated for a process. -/
inductive Resource
  | object (o : Nat)
  | pageMap (page : Nat)
  | handleTable (owner : Nat)
  deriving DecidableEq

structure ProcessSystem where
  objects : HandleSystem Nat
  kind : Nat → ObjectKind
  process : Nat → Option EProcess
  processList : HandleTable
  current : Nat
  allocated : Multiset Resource
  freed : Multiset Resource

/-- What is used of `OBJECT_ATTRIBUTES`. -/
structure ProcessAttributes where
  hasName : Bool
  rootDirectory : Nat
  noInherit : Bool
  duplicateOnFork : Bool

/-- A call of `OSCreateProcess`, with what the memory manager, the pool and the `Duplicate` methods
answer in it: whether the attributes can be read each of the two times, the memory of the object, the
page map (`0` if there is none), room for what the tables need, and whether the handle can be written
to its destination. -/
structure CreateProcessCall where
  attributes : Option ProcessAttributes
  readable : Bool
  readableAgain : Bool
  parentProcessHandle : Nat
  inheritHandles : Bool
  deepCloneHandles : Bool
  object : Option Nat
  pageMap : Nat
  listRoom : Bool
  tableRoom : Bool
  mapRoom : Bool
  resizeRoom : Bool
  answer : Nat → DuplicateAnswer
  insertRoom : Bool
  shrinkRoom : Bool
  copyOut : Bool

def currentProcessHandle : Nat := 0xFFFFFFFF

/-- `TYPE_INFO` of `PsProcessObjectType`. -/
def processTypeInfo : TypeInfo := ⟨true, false⟩

/-- The address of an object, as the process list has it. -/
def address (o : Nat) : Nat := 8 * o

namespace ProcessSystem

def setProcess (s : ProcessSystem) (o : Nat) (body : Option EProcess) : ProcessSystem :=
  { s with process := update s.process o body }

def allocate (s : ProcessSystem) (r : Resource) : ProcessSystem :=
  { s with allocated := s.allocated + {r} }

def free (s : ProcessSystem) (r : Resource) : ProcessSystem :=
  { s with freed := s.freed + {r} }

/-! ## The process list -/

def pspAddProcessToList (s : ProcessSystem) (o : Nat) (room : Bool) :
    Option (HandleStatus × ProcessSystem) :=
  (s.process o).bind fun body =>
    (s.processList.exCreateHandle (address o) room).map fun
      | (t, .error status) =>
        (status, { s.setProcess o (some { body with processId := 0 }) with processList := t })
      | (t, .ok handle) =>
        (.success, { s.setProcess o (some { body with processId := handle }) with processList := t })

/-- `PspRemoveProcessFromList`. It asserts that the handle could be deleted. -/
def pspRemoveProcessFromList (s : ProcessSystem) (o : Nat) (room : Bool) : Option ProcessSystem :=
  (s.process o).bind fun body =>
    if body.processId = 0 then some s
    else
      match s.processList.exDeleteHandle body.processId (fun _ => true) room with
      | some (t, .success) =>
        some { s.setProcess o (some { body with processId := 0 }) with processList := t }
      | _ => none

/-! ## The delete routine -/

/-- `PspDeleteProcess`. `MmTearDownProcess` works on the page map, so there must be one. -/
def pspDeleteProcess (s : ProcessSystem) (o : Nat) (room : Bool) : Option ProcessSystem :=
  (s.process o).bind fun body =>
    if body.pageMap = 0 then none
    else
      (s.objects.obKillHandleTable o).bind fun objects =>
        pspRemoveProcessFromList
          ({ s with objects := objects }.free (.pageMap body.pageMap) |>.free (.handleTable o)) o room

def obpFreeObject (s : ProcessSystem) (o : Nat) : ProcessSystem :=
  { s.setProcess o none with
    objects := { s.objects with object := update s.objects.object o none }
    freed := s.freed + {.object o} }

/-- `ObpDeleteObject` if nothing refers to a process any more. -/
def reap (s : ProcessSystem) (o : Nat) (room : Bool) : Option ProcessSystem :=
  if s.objects.references o = 0 ∧ s.kind o = .process then
    (s.pspDeleteProcess o room).map (·.obpFreeObject o)
  else some s

def obDereferenceObject (s : ProcessSystem) (o : Nat) (room : Bool) : Option ProcessSystem :=
  (s.objects.obDereferenceObject o).bind fun objects => { s with objects := objects }.reap o room

/-! ## Handles of the caller -/

/-- The object that a handle of the caller refers to. -/
def objectOf (s : ProcessSystem) (handle : Nat) : Option Nat :=
  ((s.objects.tables.lookup s.current).bind (·.handles handle)).map
    fun x => (HandleItem.ofPointer x).addressBits

def obReferenceObjectByHandle (s : ProcessSystem) (handle : Nat) (expectedType : ObjectKind) :
    Option (Except ProcessStatus Nat × ProcessSystem) :=
  (s.objects.tables.lookup s.current).bind fun t =>
    (t.exGetPointerFromHandle handle).bind fun
      | .error status => some (.error (.handle status), s)
      | .ok x =>
        let o := (HandleItem.ofPointer x).addressBits
        if s.kind o ≠ expectedType then some (.error .typeMismatch, s)
        else
          (s.objects.obReferenceObjectByPointer o).map fun objects =>
            (.ok o, { s with objects := objects })

/-- `ExReferenceObjectByHandle`, for a process. -/
def exReferenceObjectByHandle (s : ProcessSystem) (handle : Nat) :
    Option (Except ProcessStatus Nat × ProcessSystem) :=
  if handle = currentProcessHandle then
    (s.objects.obReferenceObjectByPointer s.current).map fun objects =>
      (.ok s.current, { s with objects := objects })
  else s.obReferenceObjectByHandle handle .process

def osClose (s : ProcessSystem) (handle : Nat) (room : Bool) : Option ProcessSystem :=
  (s.objects.obClose s.current handle room).bind fun (objects, _) =>
    match s.objectOf handle with
    | none => some { s with objects := objects }
    | some o => { s with objects := objects }.reap o room

/-! ## Creation -/

/-- The handle table of a new process. A table that is made for an inheriting process and then cannot
be made large enough is not given back: `ExDeleteHandleTable` refuses an empty table. -/
def createHandleTable (s : ProcessSystem) (o : Nat) (parent : Option Nat) (c : CreateProcessCall) :
    Option (HandleStatus × ProcessSystem) :=
  if c.inheritHandles || c.deepCloneHandles then
    parent.bind fun p =>
      (s.objects.obDuplicateHandleTable o p
        (if c.deepCloneHandles then .duplicateHandle else .inheritHandle) c.answer c.tableRoom
        c.mapRoom c.resizeRoom).map fun (objects, status) =>
          match (s.objects.tables.lookup p).bind
            fun t => t.exCreateHandleTableInherit c.tableRoom c.mapRoom with
          | some (.ok _) => (status, { s with objects := objects }.allocate (.handleTable o))
          | _ => (status, { s with objects := objects })
  else
    (exCreateHandleTable 16 16 2048 c.tableRoom c.mapRoom).map fun
      | .error status => (status, s)
      | .ok t =>
        (.success, { s with
          objects := { s.objects with tables := s.objects.tables.insert o t } }.allocate
            (.handleTable o))

/-- The end of a `PspInitializeProcessObject` that fails on the handle table. -/
def releasePageMap (s : ProcessSystem) (o : Nat) : ProcessSystem :=
  match s.process o with
  | some body =>
    if body.pageMap = 0 then s
    else (s.setProcess o (some { body with pageMap := 0 })).free (.pageMap body.pageMap)
  | none => s

def pspInitializeProcessObject (s : ProcessSystem) (o : Nat) (parent : Option Nat)
    (c : CreateProcessCall) : Option (HandleStatus × ProcessSystem) :=
  if c.pageMap = 0 then some (.insufficientMemory, s)
  else
    let s := (s.setProcess o (some ⟨c.pageMap, 0⟩)).allocate (.pageMap c.pageMap)
    (s.pspAddProcessToList o c.listRoom).bind fun (status, s) =>
      if status ≠ .success then some (status, s)
      else
        (s.createHandleTable o parent c).map fun (status, s) =>
          if status ≠ .success then (status, s.releasePageMap o) else (status, s)

/-- `ObCreateObject` for a process, which is in no directory. Its body is zeroed. -/
def obCreateObject (s : ProcessSystem) (o : Nat) : Option ProcessSystem :=
  (s.objects.obpAllocateObject o processTypeInfo).map fun objects =>
    { s.setProcess o (some ⟨0, 0⟩) with
      objects := objects
      kind := update s.kind o .process
      allocated := s.allocated + {.object o} }

/-- What `ExCreateObjectUserCall` does with an object that is initialized. The handle goes to a
variable of the caller, which can always be written, so `FailUndo` is only reached if there is no room
for the handle; the object is in no directory from which it had to be unlinked. Either way the first
reference is dropped. -/
def insertCreated (s : ProcessSystem) (o : Nat) (a : Option ProcessAttributes)
    (c : CreateProcessCall) : Option (Except ProcessStatus (Nat × Nat) × ProcessSystem) :=
  (s.objects.obpInsertObject s.current o (a.any (·.noInherit)) (a.any (·.duplicateOnFork))
    c.insertRoom).bind fun r =>
      ({ s with objects := r.1 }.obDereferenceObject o c.shrinkRoom).map fun s =>
        (match r.2 with
          | .ok handle => .ok (handle, o)
          | .error status => .error (.handle status), s)

/-- `ExCreateObjectUserCall` from the creation of the object on, up to its label `Fail`. -/
def createInserted (s : ProcessSystem) (a : Option ProcessAttributes) (parent : Option Nat)
    (c : CreateProcessCall) : Option (Except ProcessStatus (Nat × Nat) × ProcessSystem) :=
  match c.object with
  | none => some (.error (.handle .insufficientMemory), s)
  | some o =>
    (s.obCreateObject o).bind fun s =>
      (s.pspInitializeProcessObject o parent c).bind fun r =>
        if r.1 = .success then r.2.insertCreated o a c
        else some (.error (.handle r.1), r.2)

/-- The label `Fail` of `ExCreateObjectUserCall`. -/
def dereferenceParentDirectory (s : ProcessSystem) (directory : Option Nat) (room : Bool) :
    Option ProcessSystem :=
  match directory with
  | none => some s
  | some d => s.obDereferenceObject d room

/-- The part of `ExCreateObjectUserCall` that references the root directory, if there is one. -/
def referenceRootDirectory (s : ProcessSystem) (a : Option ProcessAttributes) :
    Option (Except ProcessStatus (Option Nat) × ProcessSystem) :=
  if a.elim 0 (·.rootDirectory) = 0 then some (.ok none, s)
  else
    (s.obReferenceObjectByHandle (a.elim 0 (·.rootDirectory)) .directory).map fun r =>
      (r.1.map some, r.2)

/-- `ExCreateObjectUserCall` from then on. -/
def createIn (s : ProcessSystem) (directory parent : Option Nat) (c : CreateProcessCall) :
    Option (Except ProcessStatus (Nat × Nat) × ProcessSystem) :=
  (if c.attributes.any (·.duplicateOnFork) then
    some (.error (.handle .unsupportedFunction), s)
    else s.createInserted c.attributes parent c).bind fun r =>
      match r.1 with
      | .ok _ => some r
      | .error _ => (r.2.dereferenceParentDirectory directory c.shrinkRoom).map (r.1, ·)

/-- `ExCreateObjectUserCall` for a process, with the handle and the new process. -/
def exCreateObjectUserCall (s : ProcessSystem) (parent : Option Nat) (c : CreateProcessCall) :
    Option (Except ProcessStatus (Nat × Nat) × ProcessSystem) :=
  if c.attributes.isSome ∧ c.readableAgain = false then some (.error .fault, s)
  else
    (s.referenceRootDirectory c.attributes).bind fun
      | (.error status, s) => some (.error status, s)
      | (.ok directory, s) => s.createIn directory parent c

/-- `OSCreateProcess` after `ExCreateObjectUserCall`, with the reference on the parent given back. -/
def finishCreation (s : ProcessSystem) (result : Except ProcessStatus (Nat × Nat))
    (c : CreateProcessCall) : Option (Except ProcessStatus Nat × ProcessSystem) :=
  match result with
  | .error status => some (.error status, s)
  | .ok (handle, o) =>
    if c.copyOut then some (.ok handle, s)
    else
      (s.obDereferenceObject o c.shrinkRoom).bind fun s =>
        (s.osClose handle c.shrinkRoom).map (.error .fault, ·)

def osCreateProcess (s : ProcessSystem) (c : CreateProcessCall) :
    Option (Except ProcessStatus Nat × ProcessSystem) :=
  if (c.inheritHandles || c.deepCloneHandles) = true ∧ c.parentProcessHandle = 0 then
    some (.error (.handle .invalidParameter), s)
  else if c.attributes.isSome ∧ c.readable = false then some (.error .fault, s)
  else if c.attributes.any (·.hasName) then some (.error (.handle .invalidParameter), s)
  else if c.parentProcessHandle = 0 then
    (s.exCreateObjectUserCall none c).bind fun (result, s) => s.finishCreation result c
  else
    (s.exReferenceObjectByHandle c.parentProcessHandle).bind fun
      | (.error status, s) => some (.error status, s)
      | (.ok p, s) =>
        (s.exCreateObjectUserCall (some p) c).bind fun (result, s) =>
          (s.obDereferenceObject p c.shrinkRoom).bind fun s => s.finishCreation result c

end ProcessSystem

end Boron.Ps
