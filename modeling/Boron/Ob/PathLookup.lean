import Boron.Ob.Object

/-! # Looking up a path (`ob/dir.c`, `ob/link.c`)

`ObpLookUpObjectPath` follows a path from a start object: a directory takes the first component off
the path, and a type with a `Parse` method takes off what it likes. The method of symbolic links
looks up the link's target, with one more on the loop count, and leaves the path alone.

The `Parse` methods of the other types are those of the I/O manager and of drivers. Such a method
fails, or returns an object of its choice with one more reference: one that is there already, or one
that it creates. All this runs at `IPL_NORMAL`. -/

namespace Boron.Ob

def obMaxLoop : Nat := 16

/-- The first value of `CurrDepth`. -/
def maxDepth : Nat := 100

structure OpenFlags where
  openSymlink : Bool := false
  userMode : Bool := false
  objectNamespace : Bool := false

/-- What a lookup returns, and the objects afterwards. -/
abbrev LookedUp (O : Type) := Option (Except ObStatus O × Namespace O)

/-- A `Parse` method: the new object, with what is left of the path (`none` is a null path: this is
the object that was asked for). -/
abbrev ParseMethod (O : Type) :=
  O → Name → (loopCount : Nat) → Namespace O → Option (Except ObStatus (O × Option Name) × Namespace O)

/-- The globals of the object manager, and the `Parse` methods of the types that are not its own.
`created` is the body of an object that such a method creates. -/
structure ObManager (O : Type) where
  rootDirectory : O
  fileSystemRootLink : Option O
  parse : ObjectType → Option (O → Name → (loopCount : Nat) → Except ObStatus (O × Option Name))
  created : O → Body O

namespace ObManager

variable {O : Type} [DecidableEq O]

/-- The reference that comes with an object that a `Parse` method returns. -/
def receive (m : ObManager O) (ns : Namespace O) (o : O) : Namespace O :=
  if (ns.object o).isSome then ns.obReferenceObjectByPointer o
  else ns.set o (some ⟨false, none, none, 1, m.created o⟩)

/-- The method of a type that is not the object manager's own. -/
def foreignParse (m : ObManager O) :
    Body O → Option (O → Name → (loopCount : Nat) → Except ObStatus (O × Option Name))
  | .directory .. => none
  | .symbolicLink _ => none
  | .file => m.parse .file
  | .other type => m.parse (.other type)

def obpParseSymbolicLink (lookUp : Name → Namespace O → LookedUp O) (destPath : Option Name) :
    ParseMethod O := fun _ path _ ns =>
  match destPath with
  | none => some (.error .unassignedLink, ns)
  | some dest =>
    (lookUp dest ns).map fun (result, ns) => (result.map fun o => (o, some path), ns)

/-- `TypeInfo.Parse` of an object's type. -/
def parseMethod (m : ObManager O) (lookUp : Name → Namespace O → LookedUp O) (body : Body O) :
    Option (ParseMethod O) :=
  match body with
  | .symbolicLink destPath => some (obpParseSymbolicLink lookUp destPath)
  | body =>
    (m.foreignParse body).map fun parse o path loopCount ns =>
      match parse o path loopCount with
      | .error status => some (.error status, ns)
      | .ok (new, rest) => some (.ok (new, rest), m.receive ns new)

/-- What `ObpLookUpObjectPath` does at `TerminateParsing`. -/
def terminateParsing (expectedType : Option ObjectType) (o : O) (ns : Namespace O) : LookedUp O :=
  (ns.object o).bind fun h =>
    if expectedType.any fun type => type ≠ h.body.type then
      (ns.obDereferenceObject o false).map fun ns => (.error .typeMismatch, ns)
    else some (.ok o, ns)

/-- A turn of the loop of `ObpLookUpObjectPath` in a directory; `next` is the rest of the loop. -/
def enterDirectory (next : O → Name → Namespace O → LookedUp O) (current : O) (children : List O)
    (path : Name) (ns : Namespace O) : LookedUp O :=
  if path = [] then some (.ok current, ns)
  else
    match ns.obpLookUpDirectoryEntry children path with
    | (none, ns) => (ns.obDereferenceObject current false).map fun ns => (.error .nameNotFound, ns)
    | (some (child, length), ns) =>
      (ns.obDereferenceObject current false).bind (next child (path.drop length))

/-- What the loop does with the answer of a `Parse` method. -/
def afterParse (next : O → Name → Namespace O → LookedUp O) (expectedType : Option ObjectType)
    (current : O) : Except ObStatus (O × Option Name) × Namespace O → LookedUp O
  | (.error status, ns) => (ns.obDereferenceObject current false).map fun ns => (.error status, ns)
  -- the reference on the current object is not dropped here
  | (.ok (new, none), ns) => terminateParsing expectedType new ns
  | (.ok (new, some rest), ns) => (ns.obDereferenceObject current false).bind (next new rest)

/-- A turn of the loop with an object that is not a directory, when the lookup does not end with a
symbolic link. -/
def parseObject (m : ObManager O) (lookUp : Name → Namespace O → LookedUp O)
    (next : O → Name → Namespace O → LookedUp O) (expectedType : Option ObjectType)
    (loopCount : Nat) (current : O) (body : Body O) (path : Name) (ns : Namespace O) : LookedUp O :=
  match m.parseMethod lookUp body with
  | some parse =>
    (parse current path (loopCount + 1) ns).bind (afterParse next expectedType current)
  | none =>
    if path ≠ [] then
      (ns.obDereferenceObject current false).map fun ns => (.error .pathInvalid, ns)
    else terminateParsing expectedType current ns

/-- The loop of `ObpLookUpObjectPath`, with the lookup that a symbolic link starts. -/
def lookUpLoop (m : ObManager O) (lookUp : Name → Namespace O → LookedUp O)
    (expectedType : Option ObjectType) (openSymlink : Bool) (loopCount : Nat) :
    (depth : Nat) → (current : O) → (path : Name) → Namespace O → LookedUp O
  | 0, _, _, ns => some (.error .pathTooDeep, ns)
  | depth + 1, current, path, ns =>
    let next := m.lookUpLoop lookUp expectedType openSymlink loopCount depth
    (ns.object current).bind fun h =>
      match h.directory with
      | some (children, _) => enterDirectory next current children path ns
      | none =>
        if h.body.type = .symbolicLink ∧ path = [] ∧ openSymlink then
          terminateParsing expectedType current ns
        else m.parseObject lookUp next expectedType loopCount current h.body path ns

/-- The object that a lookup starts from, and the path from there. -/
def startObject (m : ObManager O) (ns : Namespace O) (initialParseObject : Option O) (name : Name)
    (expectedType : Option ObjectType) (flags : OpenFlags) : Option (Except ObStatus (O × Name)) :=
  match initialParseObject with
  | none =>
    let start :=
      if expectedType = some .file ∧ flags.userMode ∧ !flags.objectNamespace then
        m.fileSystemRootLink.getD m.rootDirectory
      else m.rootDirectory
    if name.head? = some pathSeparator then some (.ok (start, name.tail))
    else some (.error .pathInvalid)
  | some o =>
    if name.head? = some pathSeparator ∨ name = [] then some (.error .pathInvalid)
    else
      (ns.object o).map fun h =>
        if h.body.type = .directory ∨ h.body.type = .symbolicLink ∨ h.body.type = .file then
          .ok (o, name)
        else .error .pathInvalid

/-- `ObpLookUpObjectPath` when the loop count may go up `left` more times. -/
def lookUpWithin (m : ObManager O) :
    (left : Nat) → (initialParseObject : Option O) → Name → Option ObjectType → OpenFlags →
      Namespace O → LookedUp O
  | 0, _, _, _, _, ns => some (.error .loopTooDeep, ns)
  | left + 1, initialParseObject, name, expectedType, flags, ns =>
    (m.startObject ns initialParseObject name expectedType flags).bind fun
      | .error status => some (.error status, ns)
      | .ok (start, path) =>
        m.lookUpLoop (fun dest => m.lookUpWithin left none dest none {}) expectedType
          flags.openSymlink (obMaxLoop - (left + 1)) maxDepth start path
          (ns.obReferenceObjectByPointer start)

/-- `ObpLookUpObjectPath`, with whether `FoundObject` is given. -/
def obpLookUpObjectPath (m : ObManager O) (initialParseObject : Option O)
    (objectName : Option Name) (expectedType : Option ObjectType) (loopCount : Nat)
    (flags : OpenFlags) (foundObject : Bool) (ns : Namespace O) : LookedUp O :=
  match objectName with
  | none => some (.error .invalidParameter, ns)
  | some name =>
    if !foundObject then some (.error .invalidParameter, ns)
    else m.lookUpWithin (obMaxLoop - loopCount) initialParseObject name expectedType flags ns

end ObManager

end Boron.Ob
