import Boron.Mm.Commit

/-! # Mappable objects (`mm/section.c`, `mm/overlay.c`, `io/filemap.c`, `ob/ref.c`)

Page frames with their reference counts and contents, and the objects whose pages a VAD can map: a
section has pages of its own, a file has those of its page cache, and a copy-on-write overlay has the
pages written through it and takes the others from its parent. The sparse array of an object is kept
as the list of its entries.

A frame's reference belongs to whoever took it: `MmpGetPageSection` and its like return a frame with a
reference for their caller. -/

namespace Boron.Mm

open Function

variable {T Page : Type}

/-! ## Data -/

/-- What the object number `o` is. An overlay is made after its parent; its offset is in pages. -/
inductive MappableKind (o : Nat)
  | sectionObject
  | fileObject
  | overlayObject (parent : Fin o) (sectionOffset : Nat)

/-- A mappable object: the entries of its sparse array and the count of its references. -/
structure Mappable (o : Nat) where
  kind : MappableKind o
  sla : List (Nat × Nat)
  pointerCount : Nat

/-- Page frames, objects and processes. -/
structure Machine (T Page : Type) where
  refCount : Nat → Nat
  content : Nat → Page
  object : (o : Nat) → Mappable o
  memory : Nat → UserMemory T

/-- What `BackingMemory` of a file's driver answers, if it has that method. The driver refers to the
frame once more before it returns it. -/
inductive Backing
  | absent
  | outOfFileBounds
  | hardwareIoError
  | failed
  | page (pfn : Nat)
  deriving DecidableEq, Repr

/-- What a call meets on its way: the frames that the allocator hands out, room for the inner levels
of an object's sparse array and for page tables, what files are backed by and what a read from disk
brings. -/
structure Supply (Page : Type) where
  basePage : Option Nat
  newPage : Option Nat
  slaRoom : Nat → Bool
  room : Nat → Bool
  backing : Nat → Nat → Backing
  diskPage : Option Page

/-- What a request for a page ends with. -/
inductive PageAnswer
  | page (pfn : Nat)
  | moreProcessingRequired
  | hardwareIoError
  | insufficientMemory
  | failed
  deriving DecidableEq, Repr

namespace Machine

/-! ## Frames -/

def setRefCount (s : Machine T Page) (f n : Nat) : Machine T Page :=
  { s with refCount := update s.refCount f n }

def setContent (s : Machine T Page) (f : Nat) (c : Page) : Machine T Page :=
  { s with content := update s.content f c }

def mmPageAddReference (s : Machine T Page) (f : Nat) : Machine T Page :=
  s.setRefCount f (s.refCount f + 1)

def mmFreePhysicalPage (s : Machine T Page) (f : Nat) : Machine T Page :=
  s.setRefCount f (s.refCount f - 1)

/-- `MmFreePhysicalPage`, once for each frame of the list. -/
def freeAll (s : Machine T Page) (frames : List Nat) : Machine T Page :=
  frames.foldl mmFreePhysicalPage s

/-- `MmAllocatePhysicalPage`, on the frame that the lists of free frames have first. -/
def mmAllocatePhysicalPage [Zero Page] (s : Machine T Page) (offer : Option Nat) :
    Machine T Page × Option Nat :=
  match offer.filter fun f => s.refCount f = 0 with
  | none => (s, none)
  | some f => ((s.setRefCount f 1).setContent f 0, some f)

/-! ## Sparse arrays -/

def setSla (s : Machine T Page) (o : Nat) (sla : List (Nat × Nat)) : Machine T Page :=
  { s with object := update s.object o { s.object o with sla := sla } }

def mmLookUpEntrySla (s : Machine T Page) (o i : Nat) : Option Nat := (s.object o).sla.lookup i

/-- `MmAssignEntrySla` with `MM_SLA_NO_DATA`. -/
def clearEntry (s : Machine T Page) (o i : Nat) : Machine T Page :=
  s.setSla o ((s.object o).sla.filter fun x => x.1 != i)

def mmAssignEntrySla (s : Machine T Page) (o i f : Nat) : Machine T Page :=
  s.setSla o ((i, f) :: (s.object o).sla.filter fun x => x.1 != i)

/-- `MmDeinitializeSla`, with a function that frees the frame of an entry. -/
def mmDeinitializeSla (s : Machine T Page) (o : Nat) : Machine T Page :=
  (s.setSla o []).freeAll ((s.object o).sla.map Prod.snd)

/-! ## Pages of objects -/

variable [Zero Page]

def mmpGetPageSection (s : Machine T Page) (e : Supply Page) (o i : Nat) :
    Machine T Page × PageAnswer :=
  match s.mmLookUpEntrySla o i with
  | some f => (s.mmPageAddReference f, .page f)
  | none =>
    match s.mmAllocatePhysicalPage e.basePage with
    | (s, none) => (s, .insufficientMemory)
    | (s, some f) =>
      if e.slaRoom o then ((s.mmAssignEntrySla o i f).mmPageAddReference f, .page f)
      else (s.mmFreePhysicalPage f, .insufficientMemory)

omit [Zero Page] in
def iopGetPageFromFile (s : Machine T Page) (e : Supply Page) (o i : Nat) :
    Machine T Page × PageAnswer :=
  match e.backing o i with
  | .page f => (s.mmPageAddReference f, .page f)
  | .hardwareIoError => (s, .hardwareIoError)
  | .failed => (s, .failed)
  | .absent | .outOfFileBounds =>
    match s.mmLookUpEntrySla o i with
    | some f => (s.mmPageAddReference f, .page f)
    | none => (s, .moreProcessingRequired)

/-- `IopReadPageFromFile`. The reference of the MDL is gone when the read is over, and the second
assignment of the entry finds the levels that the first one made. -/
def iopReadPageFromFile (s : Machine T Page) (e : Supply Page) (o i : Nat) :
    Machine T Page × PageAnswer :=
  if e.slaRoom o then
    match (s.clearEntry o i).mmAllocatePhysicalPage e.basePage with
    | (s, none) => (s, .insufficientMemory)
    | (s, some f) =>
      match e.diskPage with
      | some c => ((s.setContent f c).mmAssignEntrySla o i f, .page f)
      | none => (s.mmFreePhysicalPage f, .failed)
  else (s, .insufficientMemory)

/-- `MmGetPageMappable`, with `MmpGetPageOverlay`: an overlay without the page asks its parent. -/
def getPageFuel (s : Machine T Page) (e : Supply Page) : (fuel o : Nat) → o < fuel → Nat →
    Machine T Page × PageAnswer
  | fuel + 1, o, _, i =>
    match (s.object o).kind with
    | .sectionObject => s.mmpGetPageSection e o i
    | .fileObject => s.iopGetPageFromFile e o i
    | .overlayObject parent sectionOffset =>
      match s.mmLookUpEntrySla o (addW i sectionOffset) with
      | some f => (s.mmPageAddReference f, .page f)
      | none => getPageFuel s e fuel parent (by omega) (addW i sectionOffset)

def mmGetPageMappable (s : Machine T Page) (e : Supply Page) (o i : Nat) :
    Machine T Page × PageAnswer :=
  s.getPageFuel e (o + 1) o (Nat.lt_succ_self o) i

/-- `MmReadPageMappable`, with `MmpReadPageSection` and `MmpReadPageOverlay`. -/
def readPageFuel (s : Machine T Page) (e : Supply Page) : (fuel o : Nat) → o < fuel → Nat →
    Machine T Page × PageAnswer
  | fuel + 1, o, _, i =>
    match (s.object o).kind with
    | .sectionObject => (s, .hardwareIoError)
    | .fileObject => s.iopReadPageFromFile e o i
    | .overlayObject parent sectionOffset =>
      readPageFuel s e fuel parent (by omega) (addW i sectionOffset)

def mmReadPageMappable (s : Machine T Page) (e : Supply Page) (o i : Nat) :
    Machine T Page × PageAnswer :=
  s.readPageFuel e (o + 1) o (Nat.lt_succ_self o) i

/-- The end of `MmpPrepareWriteOverlay`: copy the parent's page `f` into one of the overlay. -/
def copyPage (s : Machine T Page) (e : Supply Page) (o i f : Nat) : Machine T Page × Bool :=
  match s.mmLookUpEntrySla o i with
  | some _ => (s.mmFreePhysicalPage f, true)
  | none =>
    match s.mmAllocatePhysicalPage e.newPage with
    | (s, none) => (s.mmFreePhysicalPage f, false)
    | (s, some new) =>
      let s := (s.setContent new (s.content f)).mmFreePhysicalPage f
      if e.slaRoom o then (s.mmAssignEntrySla o i new, true)
      else (s.mmFreePhysicalPage new, false)

/-- The parent's page for `MmpPrepareWriteOverlay`. -/
def parentPage (s : Machine T Page) (e : Supply Page) (parent i : Nat) :
    Machine T Page × PageAnswer :=
  let r := s.mmGetPageMappable e parent i
  if r.2 = .hardwareIoError then r.1.mmReadPageMappable e parent i else r

/-- `MmpPrepareWriteOverlay`, with the overlay's offset added to the index already. -/
def mmpPrepareWriteOverlay (s : Machine T Page) (e : Supply Page) (o parent i : Nat) :
    Machine T Page × Bool :=
  match s.mmLookUpEntrySla o i with
  | some _ => (s, true)
  | none =>
    match s.parentPage e parent i with
    | (s, .page f) => s.copyPage e o i f
    | (s, _) => (s, false)

omit [Zero Page] in
/-- `IopPrepareWriteFile`, which asserts that the page is there. -/
def iopPrepareWriteFile (s : Machine T Page) (e : Supply Page) (o i : Nat) :
    Option (Machine T Page × Bool) :=
  match e.backing o i with
  | .page f => some ((s.mmPageAddReference f).mmFreePhysicalPage f, true)
  | .hardwareIoError | .failed => some (s, false)
  | .absent | .outOfFileBounds =>
    (s.mmLookUpEntrySla o i).map fun f => ((s.mmPageAddReference f).mmFreePhysicalPage f, true)

def mmPrepareWriteMappable (s : Machine T Page) (e : Supply Page) (o i : Nat) :
    Option (Machine T Page × Bool) :=
  match (s.object o).kind with
  | .sectionObject => some (s, true)
  | .fileObject => s.iopPrepareWriteFile e o i
  | .overlayObject parent sectionOffset =>
    some (s.mmpPrepareWriteOverlay e o parent (addW i sectionOffset))

/-! ## Deletion of objects -/

omit [Zero Page] in
def setPointerCount (s : Machine T Page) (o n : Nat) : Machine T Page :=
  { s with object := update s.object o { s.object o with pointerCount := n } }

omit [Zero Page] in
/-- `ObDereferenceObject`, with `MmDeleteSectionObject` and `MmDeleteOverlayObject` once the last
reference is gone. A page cache is that of the FCB and outlives the file object. -/
def derefFuel : (fuel o : Nat) → o < fuel → Machine T Page → Option (Machine T Page)
  | fuel + 1, o, _, s =>
    match (s.object o).pointerCount with
    | 0 => none
    | n + 2 => some (s.setPointerCount o (n + 1))
    | 1 =>
      let s := s.setPointerCount o 0
      match (s.object o).kind with
      | .sectionObject => some (s.mmDeinitializeSla o)
      | .fileObject => some s
      | .overlayObject parent _ => derefFuel fuel parent (by omega) (s.mmDeinitializeSla o)

omit [Zero Page] in
def obDereferenceObject (s : Machine T Page) (o : Nat) : Option (Machine T Page) :=
  derefFuel (o + 1) o (Nat.lt_succ_self o) s

end Machine

end Boron.Mm
