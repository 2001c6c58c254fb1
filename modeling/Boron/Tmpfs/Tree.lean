import Boron.Lib.Run

/-! # Directories of the temporary file system (`tmpfs/file.c`)

A directory is an FCB with a list of entries, each of which names an FCB. An entry refers to both FCBs,
and so does a file object to its one. `TmpCreateFile` creates an FCB with its entry in the parent, and
for a directory the entries `.` and `..`; `TmpMakeHardLink` adds an entry; `TmpUnlink` and
`TmpRemoveDir` take entries away.

Each function runs alone. How its allocations and its waits for mutexes end is part of the call. A
function has no result (`none`) where it uses what is not there, or where an assertion fails. -/

namespace Boron.Tmpfs

inductive FileType
  | file
  | directory
  | symbolicLink
  deriving DecidableEq

inductive TreeStatus
  | success
  | insufficientMemory
  | timeout
  | nameNotFound
  | notADirectory
  | isADirectory
  | directoryNotEmpty
  deriving DecidableEq

/-- An FCB with its extension. Entries are known by their numbers. -/
structure Fcb where
  fileType : FileType
  referenceCount : Nat
  parentEntry : Option Nat
  children : List Nat

/-- `TMPFS_DIR_ENTRY`. -/
structure DirEntry (F : Type) where
  parentFcb : F
  fcb : F
  name : String

/-- The FCBs in memory, all FCBs there ever were, how often each was freed, the entries in memory, the
FCBs of the file objects, and the FCBs whose mutexes are held. -/
structure Tree (F : Type) where
  fcb : F → Option Fcb
  fcbs : List F
  freed : F → Nat
  entries : List (Nat × DirEntry F)
  nextEntry : Nat
  fileObjects : List F
  locks : List F
  crashed : Bool

namespace Tree

variable {F : Type} [DecidableEq F]

def empty : Tree F where
  fcb := fun _ => none
  fcbs := []
  freed := fun _ => 0
  entries := []
  nextEntry := 0
  fileObjects := []
  locks := []
  crashed := false

/-! ## FCBs, file objects and entries -/

def set (s : Tree F) (f : F) (x : Option Fcb) : Tree F :=
  { s with fcb := Function.update s.fcb f x }

/-- Change the FCB `f`, which must be there. -/
def modify (s : Tree F) (f : F) (change : Fcb → Fcb) : Option (Tree F) :=
  (s.fcb f).map fun x => s.set f (some (change x))

/-- `IoAllocateFcb`, and the fields that `TmpCreateFile` sets. -/
def ioAllocateFcb (s : Tree F) (f : F) (fileType : FileType) : Tree F :=
  { s.set f (some ⟨fileType, 1, none, []⟩) with fcbs := f :: s.fcbs }

def ioFreeFcb (s : Tree F) (f : F) : Option (Tree F) :=
  (s.fcb f).map fun _ =>
    { s.set f none with freed := Function.update s.freed f (s.freed f + 1) }

def tmpReferenceFcb (s : Tree F) (f : F) : Option (Tree F) :=
  s.modify f fun x => { x with referenceCount := x.referenceCount + 1 }

def tmpDereferenceFcb (s : Tree F) (f : F) : Option (Tree F) :=
  match s.fcb f with
  | none => none
  | some x =>
    let s := s.set f (some { x with referenceCount := x.referenceCount - 1 })
    if x.referenceCount - 1 = 0 then s.ioFreeFcb f else some s

/-- `IoCreateFileObject`, where there is memory. -/
def ioCreateFileObject (s : Tree F) (f : F) : Option (Tree F) :=
  (s.tmpReferenceFcb f).map fun s => { s with fileObjects := f :: s.fileObjects }

/-- `ObDereferenceObject`, for the last reference of a file object on `f`. -/
def obDereferenceObject (s : Tree F) (f : F) : Option (Tree F) :=
  tmpDereferenceFcb { s with fileObjects := s.fileObjects.erase f } f

def entry (s : Tree F) (e : Nat) : Option (DirEntry F) :=
  (s.entries.find? fun x => x.1 = e).map Prod.snd

def newEntry (s : Tree F) (d : DirEntry F) : Tree F :=
  { s with entries := (s.nextEntry, d) :: s.entries, nextEntry := s.nextEntry + 1 }

/-- `MmFreePool` of an entry. -/
def freeEntry (s : Tree F) (e : Nat) : Option (Tree F) :=
  (s.entry e).map fun _ => { s with entries := s.entries.eraseP fun x => x.1 = e }

def insertTailList (s : Tree F) (f : F) (e : Nat) : Option (Tree F) :=
  s.modify f fun x => { x with children := x.children ++ [e] }

def removeEntryList (s : Tree F) (f : F) (e : Nat) : Option (Tree F) :=
  s.modify f fun x => { x with children := x.children.erase e }

def acquire (s : Tree F) (f : F) : Tree F := { s with locks := f :: s.locks }

/-- `KeReleaseMutex`, of a mutex in an FCB that must be there. -/
def release (s : Tree F) (f : F) : Option (Tree F) :=
  (s.fcb f).map fun _ => { s with locks := s.locks.erase f }

/-! ## Creating files -/

/-- A call of `TmpCreateFile`: the new FCB if there is memory for it, whether there is memory for the
file object and the three entries, and whether the parent's mutex can be had. -/
structure CreateCall (F : Type) where
  fcb : Option F
  fileObject : Bool
  dirEntry : Bool
  dotDirEntry : Bool
  dotDotDirEntry : Bool
  lockParent : Bool
  fileType : FileType
  parent : Option F
  name : String

def ioMaxName : Nat := 256

/-- `strncpy` to a name. -/
def entryName (name : String) : String := String.ofList (name.toList.take (ioMaxName - 1))

/-- The failure path of the `.` and `..` entries. -/
def undoCreate (s : Tree F) (f : F) (parent : Option (F × Nat)) : Option (Tree F) := do
  let s ← match parent with
    | none => some s
    | some (p, e) => do
      let s ← s.removeEntryList p e
      let s ← s.freeEntry e
      s.tmpDereferenceFcb p
  let s ← s.obDereferenceObject f
  s.ioFreeFcb f

/-- The references of the `.` and `..` entries. The entries are not put on the directory's list. -/
def addDots (s : Tree F) (f : F) (parent : Option (F × Nat)) : Option (Tree F) := do
  let dotDot := (parent.map Prod.fst).getD f
  let s := (s.newEntry ⟨f, f, "."⟩).newEntry ⟨f, dotDot, ".."⟩
  let s ← s.tmpReferenceFcb f
  let s ← s.tmpReferenceFcb f
  let s ← s.tmpReferenceFcb f
  s.tmpReferenceFcb dotDot

/-- The last part of `TmpCreateFile`, for the parent and its entry. -/
def finishCreate (s : Tree F) (c : CreateCall F) (f : F) (parent : Option (F × Nat)) :
    Option (Tree F × TreeStatus) :=
  if c.fileType ≠ .directory then some (s, .success)
  else do
    let s ← s.modify f fun x => { x with parentEntry := parent.map Prod.snd }
    if !(c.dotDirEntry && c.dotDotDirEntry) then
      return (← s.undoCreate f parent, .insufficientMemory)
    else return (← s.addDots f parent, .success)

/-- The part of `TmpCreateFile` that adds the FCB to its parent. -/
def addToParent (s : Tree F) (c : CreateCall F) (f p : F) : Option (Tree F × TreeStatus) := do
  let s ← s.tmpReferenceFcb p
  let s ← s.tmpReferenceFcb f
  if !c.dirEntry then
    let s ← s.tmpDereferenceFcb p
    let s ← s.tmpDereferenceFcb f
    let s ← s.obDereferenceObject f
    let s ← s.ioFreeFcb f
    return (s, .insufficientMemory)
  else if !c.lockParent then none
  else
    let e := s.nextEntry
    let s := (s.newEntry ⟨p, f, entryName c.name⟩).acquire p
    let s ← s.insertTailList p e
    let s ← s.release p
    s.finishCreate c f (some (p, e))

def tmpCreateFile (s : Tree F) (c : CreateCall F) : Option (Tree F × TreeStatus) :=
  match c.fcb with
  | none => some (s, .insufficientMemory)
  | some f => do
    let s := s.ioAllocateFcb f c.fileType
    if !c.fileObject then return (← s.ioFreeFcb f, .insufficientMemory)
    else
      let s ← s.ioCreateFileObject f
      match c.parent with
      | none => s.finishCreate c f none
      | some p => s.addToParent c f p

/-! ## Links -/

def tmpMakeHardLink (s : Tree F) (f : F) (newName : String) (dest : F) (memory lock : Bool) :
    Option (Tree F × TreeStatus) := do
  let y ← s.fcb dest
  if y.fileType = .directory then return (s, .isADirectory)
  else
    let x ← s.fcb f
    if x.fileType ≠ .directory then return (s, .notADirectory)
    else if !memory then return (s, .insufficientMemory)
    else if !lock then return (s, .timeout)
    else
      let e := s.nextEntry
      let s := (s.newEntry ⟨f, dest, newName⟩).acquire f
      let s ← s.tmpReferenceFcb f
      let s ← s.tmpReferenceFcb dest
      let s ← s.insertTailList f e
      return (← s.release f, .success)

/-- The loop of `TmpUnlink`: the first entry with the name, if there is one. -/
def findEntry (s : Tree F) (name : String) : List Nat → Option (Option Nat)
  | [] => some none
  | e :: es => do
    let d ← s.entry e
    if d.name = name then return some e else s.findEntry name es

def tmpUnlink (s : Tree F) (f : F) (name : String) (lock : Bool) :
    Option (Tree F × TreeStatus) := do
  let x ← s.fcb f
  if x.fileType ≠ .directory then return (s, .notADirectory)
  else if !lock then return (s, .timeout)
  else
    let s := s.acquire f
    match ← s.findEntry name x.children with
    | none => return (← s.release f, .nameNotFound)
    | some e =>
      let d ← s.entry e
      let y ← s.fcb d.fcb
      if y.fileType = .directory then return (← s.release f, .isADirectory)
      else
        let s ← s.removeEntryList f e
        let s ← s.tmpDereferenceFcb d.parentFcb
        let s ← s.tmpDereferenceFcb d.fcb
        let s ← s.freeEntry e
        return (← s.release f, .success)

/-- The loop of `TmpRemoveDir`: the first entries with the names `.` and `..`, or `none` if there is
another entry. -/
def findDots (s : Tree F) : List Nat → Option Nat → Option Nat →
    Option (Option (Option Nat × Option Nat))
  | [], dot, dotDot => some (some (dot, dotDot))
  | e :: es, dot, dotDot => do
    let d ← s.entry e
    if d.name = "." ∧ dot = none then s.findDots es (some e) dotDot
    else if d.name = ".." ∧ dotDot = none then s.findDots es dot (some e)
    else return none

/-- Give back the two references of an entry. -/
def dereferenceEntry (s : Tree F) (e : Nat) : Option (Tree F) := do
  let d ← s.entry e
  let s ← s.tmpDereferenceFcb d.parentFcb
  s.tmpDereferenceFcb d.fcb

/-- The part of `TmpRemoveDir` that takes the entries away. The entries `.` and `..` stay on the list;
`.` may be a null pointer. -/
def takeAway (s : Tree F) (parentEntry : Nat) (dot : Option Nat) (dotDot : Nat) :
    Option (Tree F) := do
  let d ← s.entry parentEntry
  let s ← s.removeEntryList d.parentFcb parentEntry
  let s ← s.dereferenceEntry parentEntry
  let s ← s.freeEntry parentEntry
  let dot ← dot
  let s ← s.dereferenceEntry dot
  let s ← s.dereferenceEntry dotDot
  let s ← s.freeEntry dot
  s.freeEntry dotDot

def tmpRemoveDir (s : Tree F) (f : F) (lock lockParent : Bool) :
    Option (Tree F × TreeStatus) := do
  let x ← s.fcb f
  if x.fileType ≠ .directory then return (s, .notADirectory)
  else if !lock then return (s, .timeout)
  else
    let s := s.acquire f
    match x.parentEntry with
    | none => return (← s.release f, .directoryNotEmpty)
    | some parentEntry =>
      match ← s.findDots x.children none none with
      | none => return (← s.release f, .directoryNotEmpty)
      | some (_, none) => return (← s.release f, .directoryNotEmpty)
      | some (dot, some dotDot) =>
        let d ← s.entry dotDot
        if d.fcb = f then none
        else if !lockParent then return (← s.release f, .timeout)
        else
          let s := s.acquire d.fcb
          let s ← s.takeAway parentEntry dot dotDot
          let s ← s.release d.fcb
          return (← s.release f, .success)

/-! ## The system -/

inductive Call (F : Type)
  | createFile (c : CreateCall F)
  | makeHardLink (f : F) (newName : String) (dest : F) (memory lock : Bool)
  | unlink (f : F) (name : String) (lock : Bool)
  | removeDir (f : F) (lock lockParent : Bool)
  /-- The last reference of a file object on `f` is dropped. -/
  | close (f : F)

/-- A new FCB is a new one, and callers have file objects on the FCBs that they pass. -/
def Possible (s : Tree F) : Call F → Prop
  | .createFile c => (∀ f ∈ c.fcb, f ∉ s.fcbs) ∧ ∀ p ∈ c.parent, p ∈ s.fileObjects
  | .makeHardLink f _ dest _ _ => f ∈ s.fileObjects ∧ dest ∈ s.fileObjects
  | .unlink f _ _ => f ∈ s.fileObjects
  | .removeDir f _ _ => f ∈ s.fileObjects
  | .close f => f ∈ s.fileObjects

instance (s : Tree F) : (a : Call F) → Decidable (s.Possible a)
  | .createFile _ => inferInstanceAs (Decidable (_ ∧ _))
  | .makeHardLink .. => inferInstanceAs (Decidable (_ ∧ _))
  | .unlink .. | .removeDir .. | .close _ => inferInstanceAs (Decidable (_ ∈ _))

def perform (s : Tree F) : Call F → Option (Tree F × TreeStatus)
  | .createFile c => s.tmpCreateFile c
  | .makeHardLink f newName dest memory lock => s.tmpMakeHardLink f newName dest memory lock
  | .unlink f name lock => s.tmpUnlink f name lock
  | .removeDir f lock lockParent => s.tmpRemoveDir f lock lockParent
  | .close f => (s.obDereferenceObject f).map fun s => (s, .success)

def step (s : Tree F) (a : Call F) : Option (Tree F) :=
  if s.crashed then none
  else if s.Possible a then
    match s.perform a with
    | some (s', _) => some s'
    | none => some { s with crashed := true }
  else none

/-- `TmpMountTarFile` creates a root directory. -/
def mountCall (root : F) : CreateCall F :=
  ⟨some root, true, true, true, true, true, .directory, none, ""⟩

def mounted (root : F) : Tree F :=
  match empty.tmpCreateFile (mountCall root) with
  | some (s, _) => s
  | none => empty

/-! ## What is promised of the tree -/

/-- The references that the entries hold. -/
def entryRefs (s : Tree F) (f : F) : Nat :=
  s.entries.countP (fun x => x.2.parentFcb = f) + s.entries.countP (fun x => x.2.fcb = f)

/-- The entry `name` of the directory names `target`. -/
def Names (s : Tree F) (x : Fcb) (name : String) (target : F) : Prop :=
  ∃ e ∈ x.children, ∃ d, s.entry e = some d ∧ d.name = name ∧ d.fcb = target

/-- The parent of a directory; the root is its own. -/
def IsParent (s : Tree F) (f : F) (x : Fcb) (p : F) : Prop :=
  match x.parentEntry with
  | none => p = f
  | some e => ∃ d, s.entry e = some d ∧ d.parentFcb = p

/-- A directory that is not the root and has no entries but `.` and `..`. -/
def Removable (s : Tree F) (f : F) : Prop :=
  ∃ x, s.fcb f = some x ∧ x.fileType = .directory ∧ x.parentEntry ≠ none ∧
    ∀ e ∈ x.children, ∃ d, s.entry e = some d ∧ (d.name = "." ∨ d.name = "..")

structure Safe (s : Tree F) : Prop where
  uncrashed : s.crashed = false
  names : ∀ f x, s.fcb f = some x → x.fileType = .directory →
    (x.children.filterMap fun e => (s.entry e).map DirEntry.name).Nodup
  dots : ∀ f x, s.fcb f = some x → x.fileType = .directory →
    s.Names x "." f ∧ ∃ p, s.IsParent f x p ∧ s.Names x ".." p
  counted : ∀ f x, s.fcb f = some x → x.referenceCount = s.entryRefs f + s.fileObjects.count f
  freed : ∀ f ∈ s.fcbs, s.entryRefs f = 0 → f ∉ s.fileObjects → s.fcb f = none ∧ s.freed f = 1
  removes : ∀ f, (∃ s', s.tmpRemoveDir f true true = some (s', .success)) ↔ s.Removable f
  removed : ∀ f s', s.tmpRemoveDir f true true = some (s', .success) →
    ∀ x, s'.fcb f = some x → x.children = []
  /-- A call that fails changes nothing. -/
  unchanged : ∀ a s' status, s.Possible a → s.perform a = some (s', status) → status ≠ .success →
    s'.fcb = s.fcb ∧ s'.entries = s.entries ∧ s'.fileObjects = s.fileObjects ∧ s'.locks = s.locks

end Tree

end Boron.Tmpfs
