import Mathlib.Logic.Function.Basic

/-! # Objects and directories (`ob/create.c`, `ob/ref.c`, `ob/dir.c`)

An object is a header with a reference count, a name and a parent directory, and a body by its type.
The body of a directory is the list of its children; a child holds a reference on its directory, but
a directory holds none on its children. An object whose last reference is dropped is deleted at once
or, at high IPL, by the reaper.

`none` is a call that does not return, or that walks through memory that has been freed. -/

namespace Boron.Ob

abbrev Name := List Char

/-- `OB_PATH_SEPARATOR`. -/
def pathSeparator : Char := '/'

inductive ObStatus
  | success
  | invalidParameter
  | insufficientMemory
  | nameCollision
  | typeMismatch
  | nameNotFound
  | unsupportedFunction
  | pathInvalid
  | loopTooDeep
  | unassignedLink
  | pathTooDeep
  | nameTooLong
  | notLinked
  | alreadyLinked
  | invalidHandle
  | other (code : Nat)
  deriving DecidableEq

/-- The types that the object manager tells apart. -/
inductive ObjectType
  | directory
  | symbolicLink
  | file
  | other (type : Nat)
  deriving DecidableEq

/-- The body of an object: the list and `Count` of a directory, `DestPath` of a symbolic link. -/
inductive Body (O : Type)
  | directory (children : List O) (count : Int)
  | symbolicLink (destPath : Option Name)
  | file
  | other (type : Nat)

def Body.type {O : Type} : Body O → ObjectType
  | .directory .. => .directory
  | .symbolicLink _ => .symbolicLink
  | .file => .file
  | .other type => .other type

/-- The headers of an object, and its body. -/
structure Object (O : Type) where
  permanent : Bool
  objectName : Option Name
  parentDirectory : Option O
  pointerCount : Nat
  body : Body O

/-- The list and the count of a directory. -/
def Object.directory {O : Type} (h : Object O) : Option (List O × Int) :=
  match h.body with
  | .directory children count => some (children, count)
  | _ => none

/-- The objects that have not been freed, and the list of the reaper. -/
structure Namespace (O : Type) where
  object : O → Option (Object O)
  reaperList : List O

namespace Namespace

variable {O : Type} [DecidableEq O]

def set (ns : Namespace O) (o : O) (h : Option (Object O)) : Namespace O :=
  { ns with object := Function.update ns.object o h }

def modify (ns : Namespace O) (o : O) (f : Object O → Object O) : Namespace O :=
  ns.set o ((ns.object o).map f)

/-- The list and the count of an object that is a directory. -/
def directory (ns : Namespace O) (d : O) : Option (List O × Int) :=
  (ns.object d).bind Object.directory

def objectName (ns : Namespace O) (o : O) : Option Name := (ns.object o).bind Object.objectName

/-! ## References -/

def obReferenceObjectByPointer (ns : Namespace O) (o : O) : Namespace O :=
  ns.modify o fun h => { h with pointerCount := h.pointerCount + 1 }

/-- `ObpDeleteObject` with `ObpFreeObject`. The `Delete` methods of the types touch nothing else
here. -/
def obpDeleteObject (ns : Namespace O) (o : O) : Namespace O :=
  if (ns.object o).any Object.permanent then ns else ns.set o none

/-- The object is on its directory's list. -/
def isListed (ns : Namespace O) (o : O) : Bool :=
  (((ns.object o).bind Object.parentDirectory).bind ns.directory).any fun d => o ∈ d.1

/-- `ObpReapObject`. The links of the reaper's list are those of the directory's list, so an object
that is on the one must not be put on the other. -/
def obpReapObject (ns : Namespace O) (o : O) : Option (Namespace O) :=
  if ns.isListed o then none else some { ns with reaperList := ns.reaperList ++ [o] }

/-- `ObDereferenceObject`, with whether the IPL is above `IPL_NORMAL`. -/
def obDereferenceObject (ns : Namespace O) (o : O) (highIpl : Bool) : Option (Namespace O) :=
  (ns.object o).bind fun h =>
    if h.pointerCount = 0 then none
    else
      let ns := ns.modify o fun h => { h with pointerCount := h.pointerCount - 1 }
      if h.pointerCount ≠ 1 ∨ h.permanent then some ns
      else if highIpl then ns.obpReapObject o
      else some (ns.obpDeleteObject o)

/-- A turn of the loop of `ObpReaperThreadRoutine`. -/
def obpReaperTurn (ns : Namespace O) : Option (Namespace O) :=
  match ns.reaperList with
  | [] => none
  | o :: rest => some ({ ns with reaperList := rest }.obpDeleteObject o)

/-! ## Directories -/

/-- `ObpAssignName`, with whether there is memory for the name. -/
def obpAssignName (h : Object O) (name : Name) (room : Bool) : ObStatus × Object O :=
  if room then (.success, { h with objectName := some name }) else (.insufficientMemory, h)

/-- The part of `ObLinkObject` that sees to the object's name. -/
def nameForLink (h : Object O) (name : Option Name) (room : Bool) : ObStatus × Object O :=
  match h.objectName, name with
  | some _, _ => (.success, h)
  | none, none => (.invalidParameter, h)
  | none, some name => obpAssignName h name room

/-- The last part of `ObLinkObject`: put the object on the list. -/
def insertChild (ns : Namespace O) (dir o : O) (children : List O) (count : Int) : Namespace O :=
  ((ns.modify dir fun d => { d with body := .directory (children ++ [o]) (count + 1) }
    ).obReferenceObjectByPointer dir).modify o fun h => { h with parentDirectory := some dir }

def obLinkObject (ns : Namespace O) (dir o : O) (name : Option Name) (room : Bool) :
    Option (ObStatus × Namespace O) :=
  (ns.object o).bind fun h =>
    if h.parentDirectory.isSome then some (.alreadyLinked, ns)
    else
      let (status, h) := nameForLink h name room
      let ns := ns.set o (some h)
      if status ≠ .success then some (status, ns)
      else
        (ns.directory dir).map fun (children, count) =>
          if children.any fun c => ns.objectName c = h.objectName then (.nameCollision, ns)
          else (.success, ns.insertChild dir o children count)

/-- `ObpRemoveObjectFromDirectory`, which leaves the object's `ParentDirectory` as it is. Taking an
entry off a list that it is not on follows pointers that no longer mean anything. -/
def obpRemoveObjectFromDirectory (ns : Namespace O) (dir o : O) : Option (Namespace O) :=
  (ns.directory dir).bind fun (children, count) =>
    if o ∈ children then
      (ns.modify dir fun d => { d with body := .directory (children.erase o) (count - 1) }
        ).obDereferenceObject dir false
    else none

def obUnlinkObject (ns : Namespace O) (o : O) : Option (ObStatus × Namespace O) :=
  (ns.object o).bind fun h =>
    match h.parentDirectory with
    | none => some (.notLinked, ns)
    | some dir => (ns.obpRemoveObjectFromDirectory dir o).map fun ns => (.success, ns)

/-! ## Looking up an entry -/

/-- The loop of `ObMatchPathName`, which has gone `n` characters into the path. -/
def matchFrom : (fileName path : Name) → (n : Nat) → Nat
  | f :: fileName, p :: path, n =>
    if f = p ∧ p ≠ pathSeparator then matchFrom fileName path (n + 1) else 0
  | [], p :: _, n => if p = pathSeparator then n + 1 else 0
  | [], [], n => n
  | _ :: _, [], _ => 0

/-- `ObMatchPathName`: the length of the path's first component with its separator, if the name is
that component, and zero otherwise. -/
def obMatchPathName (fileName path : Name) : Nat := matchFrom fileName path 0

/-- `ObpLookUpDirectoryEntry`, with the reference that it adds. -/
def obpLookUpDirectoryEntry (ns : Namespace O) (children : List O) (path : Name) :
    Option (O × Nat) × Namespace O :=
  match children.find? fun c => ((ns.objectName c).any fun name => obMatchPathName name path ≠ 0) with
  | none => (none, ns)
  | some c =>
    (some (c, obMatchPathName ((ns.objectName c).getD []) path), ns.obReferenceObjectByPointer c)

end Namespace

end Boron.Ob
