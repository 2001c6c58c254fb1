import Boron.Ob.Directory
import Boron.Ob.PathLookup

/-! # Services that create and open objects (`ex/servsup.c`, `ob/create.c`, `ob/handle.c`)

Every system service that creates or opens an object goes through `ExCreateObjectUserCall` or
`ExOpenObjectUserCall`. What the outside decides (whether user memory can be read or written, whether
there is memory, where a new object or a new handle goes, what the type's methods return) is part of
the call. `KeGetPreviousMode` reads the field that `KeSetAddressMode` writes. A service returns `.ok`
for `STATUS_SUCCESS` and `.error` for every other status. -/

namespace Boron.Ob

variable {O : Type} [DecidableEq O]

/-! ## Creating an object -/

def obMaxPathLength : Nat := 256

/-- The path before the last separator, and the name after it. -/
def splitName (name : Name) : Name × Name :=
  (((name.reverse.dropWhile (· ≠ pathSeparator)).tail).reverse,
    (name.reverse.takeWhile (· ≠ pathSeparator)).reverse)

/-- What a status says: `FAILED` is every status but `STATUS_SUCCESS`. -/
def ofStatus : ObStatus → Except ObStatus Unit
  | .success => .ok ()
  | status => .error status

namespace ObManager

/-- `ObpNormalizeParentDirectoryAndName`, once there is a parent directory. -/
def normalizeFrom (m : ObManager O) (parent : O) (name : Name) (ns : Namespace O) :
    Option (Except ObStatus (O × Name) × Namespace O) :=
  if name.head? = some pathSeparator then some (.error .invalidParameter, ns)
  else if name.length ≥ obMaxPathLength - 1 then some (.error .nameTooLong, ns)
  else
    let (path, final) := splitName name
    if path = [] then some (.ok (parent, final), ns)
    else
      (m.obpLookUpObjectPath (some parent) (some path) (some .directory) 0 {} true ns).map
        fun (result, ns) => (result.map fun dir => (dir, final), ns)

/-- `ObpNormalizeParentDirectoryAndName`. The reference on the directory that it looks up stays. -/
def obpNormalizeParentDirectoryAndName (m : ObManager O) (parent : Option O) (name : Name)
    (ns : Namespace O) : Option (Except ObStatus (O × Name) × Namespace O) :=
  if name = [] then some (.error .invalidParameter, ns)
  else
    match parent with
    | some dir => m.normalizeFrom dir name ns
    | none =>
      if name.head? ≠ some pathSeparator then some (.error .invalidParameter, ns)
      else m.normalizeFrom m.rootDirectory name.tail ns

/-- `ObCreateObject`, which puts the new object at `o`. -/
def obCreateObject (m : ObManager O) (o : O) (parent : Option O) (type : ObjectType)
    (name : Option Name) (noDirectory : Bool) (bodySize : Nat) (memory room : Bool)
    (ns : Namespace O) : Option (Except ObStatus Unit × Namespace O) :=
  if bodySize = 0 then some (.error .invalidParameter, ns)
  else if noDirectory then
    (ns.createObject o type false memory .success none room).map fun (status, ns) =>
      (ofStatus status, ns)
  else
    match name with
    | none => some (.error .invalidParameter, ns)
    | some name =>
      (m.obpNormalizeParentDirectoryAndName parent name ns).bind fun
        | (.error status, ns) => some (.error status, ns)
        | (.ok target, ns) =>
          (ns.createObject o type false memory .success (some target) room).map fun (status, ns) =>
            (ofStatus status, ns)

end ObManager

end Boron.Ob

namespace Boron.Ex

open Boron.Ob

variable {O : Type} [DecidableEq O]

inductive ProcessorMode
  | kernel
  | user
  deriving DecidableEq

/-- `OBJECT_ATTRIBUTES`: no root directory is `HANDLE_NONE`, and a name is the characters before the
null at the pointer. -/
structure ObjectAttributes where
  rootDirectory : Option Nat
  objectName : Option Name
  objectNameLength : Nat
  openSymlink : Bool := false
  userMode : Bool := false
  objectNamespace : Bool := false
  duplicateOnFork : Bool := false

/-- How the copies from user memory end. -/
structure Copying where
  attributes : ObStatus
  probe : ObStatus
  memory : Bool
  name : ObStatus

/-- The objects, the handles of the process, the mode of the thread, and how many buffers for names
have been allocated and freed. -/
structure Services (O : Type) where
  ns : Namespace O
  handles : Nat → Option O
  mode : ProcessorMode
  allocated : Nat
  freed : Nat

namespace Services

/-! ## Attributes -/

def maxStringLength : Nat := 1048575

def exDuplicateUserString (s : Services O) (string : Name) (length : Nat) (copying : Copying) :
    Except ObStatus Name × Services O :=
  if length > maxStringLength then (.error .invalidParameter, s)
  else if copying.probe ≠ .success then (.error copying.probe, s)
  else if !copying.memory then (.error .insufficientMemory, s)
  else if copying.name ≠ .success then
    (.error copying.name, { s with allocated := s.allocated + 1, freed := s.freed + 1 })
  else (.ok (string.take length), { s with allocated := s.allocated + 1 })

def exCopySafeObjectAttributes (s : Services O) (attributes : ObjectAttributes) (copying : Copying) :
    Except ObStatus ObjectAttributes × Services O :=
  if copying.attributes ≠ .success then (.error copying.attributes, s)
  else
    match attributes.objectName with
    | none => (.ok attributes, s)
    | some name =>
      if attributes.objectNameLength = 0 then (.ok { attributes with objectName := none }, s)
      else
        match s.exDuplicateUserString name attributes.objectNameLength copying with
        | (.error status, s) => (.error status, s)
        | (.ok name, s) => (.ok { attributes with objectName := some name }, s)

def exDisposeCopiedObjectAttributes (s : Services O) (attributes : ObjectAttributes) : Services O :=
  if attributes.objectName.isSome then { s with freed := s.freed + 1 } else s

/-- The attributes that a service works with, copied if the caller is in user mode. -/
def takeAttributes (s : Services O) (attributes : ObjectAttributes) (copying : Copying) :
    Except ObStatus ObjectAttributes × Services O :=
  if s.mode = .user then s.exCopySafeObjectAttributes attributes copying else (.ok attributes, s)

/-- The end of both services: the copied attributes are disposed of. -/
def dispose (s : Services O) (copyAttrs : Bool) (attributes : ObjectAttributes) : Services O :=
  if copyAttrs then s.exDisposeCopiedObjectAttributes attributes else s

/-! ## Handles -/

def obReferenceObjectByHandle (s : Services O) (handle : Nat) (expectedType : Option ObjectType) :
    Option (Except ObStatus O × Services O) :=
  match s.handles handle with
  | none => some (.error .invalidHandle, s)
  | some o =>
    (s.ns.object o).map fun h =>
      if expectedType.any fun type => type ≠ h.body.type then (.error .typeMismatch, s)
      else (.ok o, { s with ns := s.ns.obReferenceObjectByPointer o })

/-- `ObInsertObject`, with what `ExCreateHandle` returns. -/
def obInsertObject (s : Services O) (o : O) (handle : Except ObStatus Nat) :
    Option (Except ObStatus Nat × Services O) :=
  let ns := s.ns.obReferenceObjectByPointer o
  match handle with
  | .error status =>
    (ns.obDereferenceObject o false).map fun ns => (.error status, { s with ns := ns })
  | .ok handle =>
    some (.ok handle, { s with ns := ns, handles := Function.update s.handles handle (some o) })

def obClose (s : Services O) (handle : Nat) : Option (Services O) :=
  match s.handles handle with
  | none => some s
  | some o =>
    (s.ns.obDereferenceObject o false).map fun ns =>
      { s with ns := ns, handles := Function.update s.handles handle none }

/-! ## Creating -/

/-- What a call of `ExCreateObjectUserCall` brings with it. -/
structure CreateCall (O : Type) where
  attributes : Option ObjectAttributes
  copying : Copying
  type : ObjectType
  supportsDuplicate : Bool
  bodySize : Nat
  object : O
  memory : Bool
  room : Bool
  createMethod : ObStatus
  handle : Except ObStatus Nat
  copyOut : ObStatus

/-- The code of `ExCreateObjectUserCall` from `Fail` on. -/
def createFail (s : Services O) (parent : Option O) (copyAttrs : Bool)
    (attributes : ObjectAttributes) (status : ObStatus) : Option (Except ObStatus Unit × Services O) :=
  match parent with
  | none => some (.error status, s.dispose copyAttrs attributes)
  | some dir =>
    (s.ns.obDereferenceObject dir false).map fun ns =>
      (.error status, { s with ns := ns }.dispose copyAttrs attributes)

/-- The code of `ExCreateObjectUserCall` from `FailUndo` on. -/
def createFailUndo (s : Services O) (o : O) (parent : Option O) (copyAttrs : Bool)
    (attributes : ObjectAttributes) (status : ObStatus) : Option (Except ObStatus Unit × Services O) :=
  (s.ns.obUnlinkObject o).bind fun (_, ns) =>
    (ns.obDereferenceObject o false).bind fun ns =>
      { s with ns := ns }.createFail parent copyAttrs attributes status

/-- `ExCreateObjectUserCall` once the object is there. -/
def createInsert (s : Services O) (c : CreateCall O) (parent : Option O) (copyAttrs : Bool)
    (attributes : ObjectAttributes) : Option (Except ObStatus Unit × Services O) :=
  if c.createMethod ≠ .success then s.createFail parent copyAttrs attributes c.createMethod
  else
    (s.obInsertObject c.object c.handle).bind fun
      | (.error status, s) => s.createFailUndo c.object parent copyAttrs attributes status
      | (.ok handle, s) =>
        if c.copyOut = .success then
          (s.ns.obDereferenceObject c.object false).map fun ns => (.ok (), { s with ns := ns })
        else
          (s.obClose handle).bind fun s =>
            s.createFailUndo c.object parent copyAttrs attributes c.copyOut

/-- `ExCreateObjectUserCall` after `ObCreateObject`. -/
def afterCreate (s : Services O) (c : CreateCall O) (parent : Option O) (copyAttrs : Bool)
    (attributes : ObjectAttributes) :
    Except ObStatus Unit × Namespace O → Option (Except ObStatus Unit × Services O)
  | (.error status, ns) => { s with ns := ns }.createFail parent copyAttrs attributes status
  | (.ok (), ns) => { s with ns := ns }.createInsert c parent copyAttrs attributes

/-- `ExCreateObjectUserCall` with the parent directory referenced. -/
def createIn (m : ObManager O) (s : Services O) (c : CreateCall O) (parent : Option O)
    (copyAttrs : Bool) (attributes : ObjectAttributes) : Option (Except ObStatus Unit × Services O) :=
  if attributes.duplicateOnFork && !c.supportsDuplicate then
    s.createFail parent copyAttrs attributes .unsupportedFunction
  else
    (m.obCreateObject c.object parent c.type attributes.objectName
      (attributes.objectNameLength = 0) c.bodySize c.memory c.room s.ns).bind
        (s.afterCreate c parent copyAttrs attributes)

/-- `ExCreateObjectUserCall` with its attributes. -/
def createWith (m : ObManager O) (s : Services O) (c : CreateCall O) (copyAttrs : Bool)
    (attributes : ObjectAttributes) : Option (Except ObStatus Unit × Services O) :=
  match attributes.rootDirectory with
  | none => s.createIn m c none copyAttrs attributes
  | some handle =>
    (s.obReferenceObjectByHandle handle (some .directory)).bind fun
      | (.error status, s) => s.createFail none copyAttrs attributes status
      | (.ok dir, s) => s.createIn m c (some dir) copyAttrs attributes

/-- The attributes of a call without any. -/
def noAttributes : ObjectAttributes where
  rootDirectory := none
  objectName := none
  objectNameLength := 0

def exCreateObjectUserCall (m : ObManager O) (s : Services O) (c : CreateCall O) :
    Option (Except ObStatus Unit × Services O) :=
  match c.attributes with
  | none => s.createWith m c (s.mode = .user) noAttributes
  | some attributes =>
    match s.takeAttributes attributes c.copying with
    | (.error status, s) => some (.error status, s)
    | (.ok attributes, s) => s.createWith m c (s.mode = .user) attributes

/-! ## Opening -/

/-- What a call of `ExOpenObjectUserCall` brings with it. -/
structure OpenCall where
  attributes : Option ObjectAttributes
  copying : Copying
  type : ObjectType
  supportsDuplicate : Bool
  openMethod : ObStatus
  handle : Except ObStatus Nat
  copyOut : ObStatus

/-- `ObOpenObjectByName` with the object that was found. -/
def openFound (s : Services O) (c : OpenCall) (o : O) : Option (Except ObStatus Nat × Services O) :=
  if c.openMethod ≠ .success then
    (s.ns.obDereferenceObject o false).map fun ns => (.error c.openMethod, { s with ns := ns })
  else
    (s.obInsertObject o c.handle).bind fun (result, s) =>
      (s.ns.obDereferenceObject o false).map fun ns => (result, { s with ns := ns })

/-- `ObOpenObjectByName` with the initial object referenced, which it does not drop. -/
def openFrom (m : ObManager O) (s : Services O) (c : OpenCall) (initial : Option O)
    (attributes : ObjectAttributes) (userMode : Bool) :
    Option (Except ObStatus Nat × Services O) :=
  (m.obpLookUpObjectPath initial attributes.objectName (some c.type) 0
    ⟨attributes.openSymlink, userMode, attributes.objectNamespace⟩ true s.ns).bind fun
      | (.error status, ns) => some (.error status, { s with ns := ns })
      | (.ok o, ns) => { s with ns := ns }.openFound c o

def obOpenObjectByName (m : ObManager O) (s : Services O) (c : OpenCall)
    (attributes : ObjectAttributes) (userMode : Bool) :
    Option (Except ObStatus Nat × Services O) :=
  match attributes.rootDirectory with
  | none => s.openFrom m c none attributes userMode
  | some handle =>
    (s.obReferenceObjectByHandle handle none).bind fun
      | (.error status, s) => some (.error status, s)
      | (.ok o, s) => s.openFrom m c (some o) attributes userMode

/-- `ExOpenObjectUserCall` after `ObOpenObjectByName`. -/
def afterOpen (s : Services O) (c : OpenCall) (copyAttrs : Bool) (attributes : ObjectAttributes) :
    Except ObStatus Nat → Option (Except ObStatus Unit × Services O)
  | .error status => some (.error status, s.dispose copyAttrs attributes)
  | .ok handle =>
    if c.copyOut = .success then some (.ok (), s)
    else (s.obClose handle).map fun s => (.error c.copyOut, s.dispose copyAttrs attributes)

/-- `ExOpenObjectUserCall` with its attributes. -/
def openWith (m : ObManager O) (s : Services O) (c : OpenCall) (copyAttrs : Bool)
    (attributes : ObjectAttributes) : Option (Except ObStatus Unit × Services O) :=
  let oldMode := s.mode
  let s := { s with mode := .kernel }
  if attributes.duplicateOnFork && !c.supportsDuplicate then
    some (.error .unsupportedFunction, s.dispose copyAttrs attributes)
  else
    (s.obOpenObjectByName m c attributes (attributes.userMode || oldMode = .user)).bind
      fun (result, s) => { s with mode := oldMode }.afterOpen c copyAttrs attributes result

def exOpenObjectUserCall (m : ObManager O) (s : Services O) (c : OpenCall) :
    Option (Except ObStatus Unit × Services O) :=
  match c.attributes with
  | none => some (.error .invalidParameter, s)
  | some attributes =>
    match s.takeAttributes attributes c.copying with
    | (.error status, s) => some (.error status, s)
    | (.ok attributes, s) => s.openWith m c (s.mode = .user) attributes

end Services

end Boron.Ex
