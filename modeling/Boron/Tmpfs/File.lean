import Boron.Io.Mdl
import Boron.Lib.Run
import Boron.Lib.Word

/-! # Files of the temporary file system (`tmpfs/file.c`)

A file is a list of page frames. A frame is allocated when its page is first asked for, and starts
with the file's initial data, an image in memory. An entry of the list that has no frame is zero.
`TmpResize` makes the list longer when the file needs it, and shorter when it is three times as long
as the file needs it or when the file becomes empty.

How the waits for the file's mutex and the allocations end is part of a step, and so is the number of
an allocated frame. `bytes` is the file as it should be: what is cut off is gone, and what is added is
zero. `owned` are the frames that the file has allocated and not freed, and `badFree` is set if it
frees another one. -/

namespace Boron.Tmpfs

open Function

open Boron.Io (Byte)

def pageSize : Nat := 4096

inductive BStatus
  | success
  | insufficientMemory
  | outOfFileBounds
  | timeout
  deriving DecidableEq

structure File where
  fileLength : Nat
  initial : List Byte
  pageList : List Nat
  frame : Nat → Nat → Byte
  owned : List Nat
  /-- The frame and the address of each page that `TmpBackingMemory` has handed out. -/
  addresses : List (Nat × Nat)
  bytes : Nat → Byte
  badFree : Bool
  crashed : Bool

namespace File

/-- A file that `TmpCreateFile` has created. -/
def start (initial : List Byte) : File where
  fileLength := initial.length
  initial := initial
  pageList := []
  frame := fun _ _ => 0
  owned := []
  addresses := []
  bytes := fun i => initial.getD i 0
  badFree := false
  crashed := false

/-- What is read at an offset: `TmpBackingMemory` fills absent pages from the initial data. -/
def byteAt (s : File) (i : Nat) : Byte :=
  if s.pageList.getD (i / pageSize) 0 ≠ 0 then
    s.frame (s.pageList.getD (i / pageSize) 0) (i % pageSize)
  else s.initial.getD i 0

/-! ## Resizing -/

/-- The loop that computes `NewPageListCount`; each pass adds at least one. -/
def growCount (lengthPages : Nat) : (fuel newPageListCount : Nat) → Nat
  | 0, newPageListCount => newPageListCount
  | fuel + 1, newPageListCount =>
    if newPageListCount < lengthPages then
      let newPageListCount := if newPageListCount < 2 then 2 else newPageListCount
      let newNewPlc := mulW newPageListCount 3 / 2
      if newNewPlc < newPageListCount then lengthPages
      else growCount lengthPages fuel newNewPlc
    else newPageListCount

def mmFreePhysicalPage (s : File) (pfn : Nat) : File :=
  if pfn ∈ s.owned then { s with owned := s.owned.erase pfn } else { s with badFree := true }

/-- `Fcb->FileLength = NewLength`, and what that means. -/
def setLength (s : File) (newLength : Nat) : File :=
  { s with
    fileLength := newLength
    bytes := fun i => if i < s.fileLength ∧ i < newLength then s.bytes i else 0 }

def lengthPages (newLength : Nat) : Nat := addW newLength (pageSize - 1) / pageSize

/-- `TmpResize`; `memory` says whether the list that it asks for can be allocated. -/
def tmpResize (s : File) (lock memory : Bool) (newLength : Nat) : File × BStatus :=
  if !lock then (s, .timeout)
  else if s.pageList.length < lengthPages newLength then
    let newPageListCount :=
      growCount (lengthPages newLength) (lengthPages newLength) s.pageList.length
    if !memory then (s, .insufficientMemory)
    else
      ({ s.setLength newLength with
        pageList := s.pageList ++ List.replicate (newPageListCount - s.pageList.length) 0 }, .success)
  else if lengthPages newLength = 0 then
    let s' := s.pageList.foldl mmFreePhysicalPage (s.setLength newLength)
    -- `MmFreePool` of a null pointer.
    if s.pageList = [] then ({ s' with crashed := true }, .success)
    else ({ s' with pageList := [] }, .success)
  else if lengthPages newLength * 3 < s.pageList.length ∧ memory then
    let s' := (s.pageList.drop (lengthPages newLength)).foldl mmFreePhysicalPage (s.setLength newLength)
    ({ s' with pageList := s.pageList.take (lengthPages newLength) }, .success)
  else (s.setLength newLength, .success)

/-! ## Pages -/

/-- A new frame: zeroes, and the part of the initial data that belongs to the page. -/
def fillPage (initial : List Byte) (page : Nat) : Nat → Byte :=
  if page * pageSize < initial.length then
    let size :=
      if pageSize > initial.length - page * pageSize then initial.length - page * pageSize
      else pageSize
    fun j => if j < size then initial.getD (page * pageSize + j) 0 else 0
  else fun _ => 0

def assign (s : File) (page pfn : Nat) : File :=
  { s with
    pageList := s.pageList.set page pfn
    frame := update s.frame pfn (fillPage s.initial page)
    owned := pfn :: s.owned }

/-- `Ext->PageList[Offset] * PAGE_SIZE` is a 32-bit product. -/
def handOut (s : File) (page : Nat) : File × Except BStatus Nat :=
  let pfn := s.pageList.getD page 0
  let physicalAddress := pfn * pageSize % 2 ^ 32
  ({ s with addresses := (pfn, physicalAddress) :: s.addresses }, .ok physicalAddress)

/-- `TmpBackingMemory`, for a file that is not a directory. `pfn` is the frame that it is given if it
asks for one. -/
def tmpBackingMemory (s : File) (lock memory : Bool) (pfn : Option Nat) (offset : Nat) :
    File × Except BStatus Nat :=
  if offset ≥ s.fileLength then (s, .error .outOfFileBounds)
  else if !lock then (s, .error .timeout)
  else
    let (s, status) :=
      if s.pageList.length = 0 ∧ s.fileLength ≠ 0 then s.tmpResize true memory s.fileLength
      else (s, .success)
    if status ≠ .success then (s, .error status)
    else
      let page := offset / pageSize
      if s.pageList.length ≤ page then ({ s with crashed := true }, .error status)
      else if s.pageList.getD page 0 = 0 then
        match pfn with
        | none => (s, .error .insufficientMemory)
        | some pfn => (s.assign page pfn).handOut page
      else s.handOut page

/-! ## The system -/

/-- A write through a mapping of a page of the file. -/
def store (s : File) (offset : Nat) (value : Byte) : File :=
  let pfn := s.pageList.getD (offset / pageSize) 0
  { s with
    frame := update s.frame pfn (update (s.frame pfn) (offset % pageSize) value)
    bytes := update s.bytes offset value }

inductive Action
  | resize (lock memory : Bool) (newLength : Nat)
  | backing (lock memory : Bool) (pfn : Option Nat) (offset : Nat)
  | store (offset : Nat) (value : Byte)

/-- The allocator gives no frame that is in use. Lengths and offsets are 64-bit numbers. -/
def step (s : File) (a : Action) : Option File :=
  if s.crashed then none
  else
    match a with
    | .resize lock memory newLength =>
      if newLength < wordSize then some (s.tmpResize lock memory newLength).1 else none
    | .backing lock memory pfn offset =>
      if offset < wordSize ∧ ∀ p ∈ pfn, p ∉ s.owned then
        some (s.tmpBackingMemory lock memory pfn offset).1
      else none
    | .store offset value =>
      if offset < s.fileLength ∧ s.pageList.getD (offset / pageSize) 0 ≠ 0 then
        some (s.store offset value)
      else none

/-- The frames that the list names. -/
def named (s : File) : List Nat := s.pageList.filter (· ≠ 0)

structure Safe (s : File) : Prop where
  crashed : s.crashed = false
  contents : ∀ i < s.fileLength, s.byteAt i = s.bytes i
  addresses : ∀ x ∈ s.addresses, x.2 = x.1 * pageSize
  /-- What was allocated and not freed is what the list names, each frame once. -/
  frees : s.badFree = false
  owned : s.owned.Perm s.named
  once : s.named.Nodup
  /-- The list, once there is one, has an entry for each page. -/
  covers : s.pageList ≠ [] → s.fileLength ≤ s.pageList.length * pageSize
  failing : ∀ lock memory newLength, (s.tmpResize lock memory newLength).2 ≠ .success →
    (s.tmpResize lock memory newLength).1.fileLength = s.fileLength ∧
    ∀ i, (s.tmpResize lock memory newLength).1.byteAt i = s.byteAt i

end File

end Boron.Tmpfs
