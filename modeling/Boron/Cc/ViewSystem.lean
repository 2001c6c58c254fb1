import Boron.Cc.ViewCache
import Boron.Lib.Mutex
import Boron.Lib.Run
import Boron.Lib.SearchTree

/-! # Views shared between threads (`cc/vcache.c`, `cc/vclru.c`, `mm/sview.c`)

Here any number of threads are inside `CcReadFileMdl` and `CcWriteFileMdl`, on any files, and their
steps interleave. A call holds its own file's `ViewCacheMutex` from beginning to end. A call that has
to map a view first makes room: it unmaps the oldest view of the list of all views, whichever file
that view is of, and takes the other file's mutex only after the view's VAD has left the system's
VAD tree and its pages are decommitted.

The two calls differ only in the direction of the copy, which is one step here: what matters is that
the view is there from the step that finds or maps it to the step that ends the copy. A piece of code
under one lock is one step. The pool is a set of handed out address ranges; what it and the other
allocations answer is part of a step's input. The last dereference of a file
(`CcPurgeViewsForFile`) cannot happen while it has views, which refer to it, and unmapping all views
(`CcUnmapAllViews`) is for the shutdown: neither is a step. -/

namespace Boron.Cc

open Function

/-- The `MMVAD` of a view. `vad` is its own place in the pool, which it never gives back. -/
structure Vad (F : Type) where
  vad : Nat
  startVa : Nat
  file : F
  sectionOffset : Nat
  aligned : sectionOffset % viewCacheSize = 0
  deriving DecidableEq

/-- `ViewCacheEntry.Key`. -/
def Vad.key {F : Type} (v : Vad F) : Nat := v.sectionOffset / viewCacheSize

/-- What is left to do of a `CcReadFileMdl` or `CcWriteFileMdl`. -/
structure Transfer (F : Type) where
  file : F
  fileOffset : Nat
  size : Nat
  deriving DecidableEq

namespace Transfer

variable {F : Type}

/-- The number of the window the transfer is at. -/
def window (c : Transfer F) : Nat := c.fileOffset / viewCacheSize

def copyAmount (c : Transfer F) : Nat :=
  let viewOffset := c.fileOffset % viewCacheSize
  let bytesTillNext := viewCacheSize - viewOffset
  if c.size < bytesTillNext then c.size else bytesTillNext

/-- The transfer after the copy through one view. -/
def next (c : Transfer F) : Transfer F :=
  { c with
    fileOffset := (c.fileOffset + c.copyAmount) % 2 ^ 64
    size := c.size - c.copyAmount }

/-- The VAD that `MmMapViewOfFileInSystemSpace` sets up for the window. -/
def newVad (c : Transfer F) (vad startVa : Nat) : Vad F :=
  ⟨vad, startVa, c.file, windowOf c.fileOffset, windowOf_mod c.fileOffset⟩

end Transfer

/-- Where a thread is, inside `CcReadFileMdl` or `CcWriteFileMdl`. `viewPointer` is the argument of
the `MmUnmapViewOfFileInSystemSpace` it is in. -/
inductive Call (F : Type)
  | idle
  /-- About to acquire the file's mutex. -/
  | entering (c : Transfer F)
  /-- At the head of the loop; from here on the file's mutex is held. -/
  | looping (c : Transfer F)
  /-- In `CcPurgeViewsOverLimit`, at the head of its loop. -/
  | purging (c : Transfer F)
  /-- In `MmUnmapViewOfFileInSystemSpace`, before it looks the VAD up. -/
  | unmapping (c : Transfer F) (viewPointer : Nat)
  /-- The VAD is out of the system's tree; now for the mutex of its file. -/
  | waiting (c : Transfer F) (viewPointer : Nat) (v : Vad F)
  /-- With that mutex in hand. -/
  | removing (c : Transfer F) (viewPointer : Nat) (v : Vad F)
  /-- The VAD is out of its file's tree too. -/
  | removed (c : Transfer F) (viewPointer : Nat) (v : Vad F)
  /-- The VAD is off the list; its address range is about to be given back. -/
  | freeing (c : Transfer F) (viewPointer : Nat)
  /-- In `MmMapViewOfFileInSystemSpace`, with enough room on the list. -/
  | allocating (c : Transfer F)
  /-- With an address range. -/
  | inserting (c : Transfer F) (startAddress : Nat)
  /-- With a VAD in the system's tree. -/
  | mapping (c : Transfer F) (v : Vad F)
  /-- With the file's mutex acquired once more. -/
  | caching (c : Transfer F) (v : Vad F)
  /-- With the VAD in the file's tree. -/
  | adding (c : Transfer F) (v : Vad F)
  /-- `CciGetViewOfFile` has returned the view, and the copy through it is going on. -/
  | copying (c : Transfer F) (v : Vad F)
  /-- `CciGetViewOfFile` has returned an error. -/
  | failing (c : Transfer F)
  deriving DecidableEq

/-- What a step gets from outside: the address range that the pool has left, if any, and whether
there is memory for a VAD. -/
structure Answers where
  space : Option Nat
  vadMemory : Bool

/-- The shared state of all calls and where each thread is. The trees are in key order, the list is
oldest first, and `poolSpace` holds the starts of the ranges handed out for views. -/
structure Views (F T : Type) where
  seekable : F → Bool
  vadTree : List (Vad F)
  viewCache : F → List (Vad F)
  viewCacheLru : List (Vad F)
  viewCacheMutex : F → Mutex T
  poolSpace : List Nat
  vadCount : Nat
  thread : T → Call F

namespace Views

variable {F T : Type} [DecidableEq F] [DecidableEq T]

/-! ## The steps -/

def goto (s : Views F T) (t : T) (call : Call F) : Views F T :=
  { s with thread := update s.thread t call }

/-- `KeWaitForSingleObject` on the mutex of `f`; `none` while another thread holds it. -/
def acquire (s : Views F T) (t : T) (f : F) (call : Call F) : Option (Views F T) :=
  ((s.viewCacheMutex f).acquire t).map fun m =>
    { s.goto t call with viewCacheMutex := update s.viewCacheMutex f m }

/-- `KeReleaseMutex` on the mutex of `f`. -/
def release (s : Views F T) (t : T) (f : F) (call : Call F) : Option (Views F T) :=
  ((s.viewCacheMutex f).release t).map fun m =>
    { s.goto t call with viewCacheMutex := update s.viewCacheMutex f m }

/-- `LookUpItemRbTree` in the `ViewCache` of the transfer's file. -/
def lookUpView (s : Views F T) (c : Transfer F) : Option (Vad F) :=
  (s.viewCache c.file).find? fun v => v.key = c.window

/-- The locked part of `MmUnmapViewOfFileInSystemSpace`; `none` when its assertion fails. -/
def takeVad (s : Views F T) (t : T) (c : Transfer F) (viewPointer : Nat) : Option (Views F T) :=
  (lookUpApproximate Vad.startVa s.vadTree viewPointer).map fun cursor =>
    { s.goto t (.waiting c viewPointer cursor.entry) with vadTree := cursor.remove }

/-- `RemoveItemRbTree` from the `ViewCache` of the VAD's file. -/
def uncache (s : Views F T) (v : Vad F) : Views F T :=
  { s with viewCache := update s.viewCache v.file ((s.viewCache v.file).filter (· ≠ v)) }

/-- `InsertItemRbTree` into the `ViewCache` of the VAD's file; the result is not looked at. -/
def cache (s : Views F T) (v : Vad F) : Views F T :=
  { s with
    viewCache := update s.viewCache v.file
      (((insertItem Vad.key (s.viewCache v.file) v).map Cursor.toTree).getD
        (s.viewCache v.file)) }

def ccRemoveVadFromViewCacheLru (s : Views F T) (v : Vad F) : Views F T :=
  { s with viewCacheLru := s.viewCacheLru.filter (· ≠ v) }

def ccAddVadToViewCacheLru (s : Views F T) (v : Vad F) : Views F T :=
  { s with viewCacheLru := if v ∈ s.viewCacheLru then s.viewCacheLru else s.viewCacheLru ++ [v] }

/-- `MmAllocatePoolBig` hands out ranges that overlap no other. -/
def Vacant (s : Views F T) (startAddress : Nat) : Prop :=
  ∀ r ∈ s.poolSpace, startAddress + viewCacheSize ≤ r ∨ r + viewCacheSize ≤ startAddress

instance (s : Views F T) (startAddress : Nat) : Decidable (s.Vacant startAddress) :=
  inferInstanceAs (Decidable (∀ r ∈ s.poolSpace, _))

def mmAllocatePoolBig (s : Views F T) (startAddress : Nat) : Option (Views F T) :=
  if s.Vacant startAddress then some { s with poolSpace := s.poolSpace ++ [startAddress] }
  else none

/-- `none`: the range is not one that was handed out. -/
def mmFreePoolBig (s : Views F T) (startAddress : Nat) : Option (Views F T) :=
  if startAddress ∈ s.poolSpace then
    some { s with poolSpace := s.poolSpace.filter (· ≠ startAddress) }
  else none

/-- `MiInitializeAndInsertVad`, with memory for the VAD or without. -/
def miInitializeAndInsertVad (s : Views F T) (t : T) (c : Transfer F) (startAddress : Nat)
    (vadMemory : Bool) : Option (Views F T) :=
  if vadMemory then
    let v := c.newVad s.vadCount startAddress
    match insertItem Vad.startVa s.vadTree v with
    | some cursor =>
      some { s.goto t (.mapping c v) with vadTree := cursor.toTree, vadCount := s.vadCount + 1 }
    | none => (s.mmFreePoolBig startAddress).map (·.goto t (.failing c))
  else (s.mmFreePoolBig startAddress).map (·.goto t (.failing c))

/-- The next step of the call a thread is in; `none` if it has to wait or the system halts. -/
def turn (s : Views F T) (t : T) (answers : Answers) : Option (Views F T) :=
  match s.thread t with
  | .idle => none
  | .entering c => s.acquire t c.file (.looping c)
  | .looping c =>
    if c.size = 0 then s.release t c.file .idle
    else
      match s.lookUpView c with
      | some v => some (s.goto t (.copying c v))
      | none => some (s.goto t (if s.seekable c.file then .purging c else .failing c))
  | .purging c =>
    if viewCacheMaxCount - 1 < s.viewCacheLru.length then
      s.viewCacheLru.head?.map fun v => s.goto t (.unmapping c v.startVa)
    else some (s.goto t (.allocating c))
  | .unmapping c viewPointer => s.takeVad t c viewPointer
  | .waiting c viewPointer v => s.acquire t v.file (.removing c viewPointer v)
  | .removing c viewPointer v => (s.uncache v).release t v.file (.removed c viewPointer v)
  | .removed c viewPointer v =>
    some ((s.ccRemoveVadFromViewCacheLru v).goto t (.freeing c viewPointer))
  | .freeing c viewPointer => (s.mmFreePoolBig viewPointer).map (·.goto t (.purging c))
  | .allocating c =>
    match answers.space with
    | some startAddress =>
      (s.mmAllocatePoolBig startAddress).map (·.goto t (.inserting c startAddress))
    | none => some (s.goto t (.failing c))
  | .inserting c startAddress => s.miInitializeAndInsertVad t c startAddress answers.vadMemory
  | .mapping c v => s.acquire t c.file (.caching c v)
  | .caching c v => (s.cache v).release t c.file (.adding c v)
  | .adding c v => some ((s.ccAddVadToViewCacheLru v).goto t (.copying c v))
  | .copying c _ => some (s.goto t (.looping c.next))
  | .failing c => s.release t c.file .idle

/-- A thread starts a call, or takes the next step of the one it is in. -/
inductive Action (F T : Type)
  | call (t : T) (c : Transfer F)
  | turn (t : T) (answers : Answers)

def step (s : Views F T) : Action F T → Option (Views F T)
  | .call t c => if s.thread t = .idle then some (s.goto t (.entering c)) else none
  | .turn t answers => s.turn t answers

/-- No view yet, and no thread in a call. -/
def start (seekable : F → Bool) : Views F T where
  seekable := seekable
  vadTree := []
  viewCache := fun _ => []
  viewCacheLru := []
  viewCacheMutex := fun _ => Mutex.free
  poolSpace := []
  vadCount := 0
  thread := fun _ => .idle

/-! ## What is promised of the views -/

/-- What an address of system space stands for: the VAD that covers it, if any, maps a byte of its
file there. -/
def translate (s : Views F T) (address : Nat) : Option (F × Nat) :=
  (lookUpApproximate Vad.startVa s.vadTree address).bind fun cursor =>
    if address < cursor.entry.startVa + viewCacheSize then
      some (cursor.entry.file, cursor.entry.sectionOffset + (address - cursor.entry.startVa))
    else none

/-- The view a thread unmaps, from the time its VAD is out of the system's tree until it is out of
its file's tree. -/
def unmaps : Call F → Option (Vad F)
  | .waiting _ _ v | .removing _ _ v => some v
  | _ => none

/-- Every view that is being copied through has its VAD in the tree and maps the window it was asked
for, and every entry of a file's tree is mapped or its unmapping call has not returned. -/
structure Safe (s : Views F T) : Prop where
  copied : ∀ t c v, s.thread t = .copying c v → v ∈ s.vadTree ∧
    ∀ i < viewCacheSize, s.translate (v.startVa + i) = some (c.file, windowOf c.fileOffset + i)
  cached : ∀ f, ∀ v ∈ s.viewCache f, v ∈ s.vadTree ∨ ∃ t, unmaps (s.thread t) = some v

/-! ## When a step is harmless -/

/-- The window a thread maps or copies through. -/
def busyWindow : Call F → Option Nat
  | .mapping c _ | .caching c _ | .adding c _ | .copying c _ => some c.window
  | _ => none

/-- A VAD may be taken out of the tree if it is the one of the view that was to be unmapped, and no
other thread that holds its file's mutex is busy with its window. -/
def MayTake (s : Views F T) (t : T) (viewPointer : Nat) : Prop :=
  ∀ cursor, lookUpApproximate Vad.startVa s.vadTree viewPointer = some cursor →
    cursor.entry.startVa = viewPointer ∧
      ∀ u, u ≠ t → (s.viewCacheMutex cursor.entry.file).owner = some u →
        busyWindow (s.thread u) ≠ some cursor.entry.key

/-- A view may be taken from the file's tree if nobody is unmapping it. -/
def MayUse (s : Views F T) (c : Transfer F) : Prop :=
  c.size ≠ 0 → ∀ v, s.lookUpView c = some v → ∀ u, unmaps (s.thread u) ≠ some v

/-- The steps that keep clear of each other's views. -/
def Calm (s : Views F T) : Action F T → Prop
  | .call _ _ => True
  | .turn t _ =>
    match s.thread t with
    | .unmapping _ viewPointer => s.MayTake t viewPointer
    | .looping c => s.MayUse c
    | _ => True

end Views

end Boron.Cc
