import Boron.Mm.Pool

/-! # The slab allocator (`mm/slab.c`)

`MmAllocatePool` serves small requests from slab items of the size class, which are regions of the
pool that start with a header and a bitmap, and larger ones from a region of their own that starts
with a magic word. `MmFreePool` is given the address alone: the word at the start of its page tells
whether it is a region of its own, and a tree of the items that may be longer than a page tells where
the item starts.

The items of all containers are in one list here, in the order in which they came into being, which is
the order of each container's list. An item is found by the page it starts at; the fields of its
header are not read from memory, and only its first word, `Check` and `Length`, is kept there. The
bitmap is an array of four words, and a search that goes on past it has left the item's rules. -/

namespace Boron.Mm

/-! ## Sizes -/

/-- `sizeof(KTHREAD)` and `sizeof(KPROCESS)`. -/
structure SlabSizes where
  thread : Nat
  process : Nat
  thread_ge : 16 ≤ thread
  thread_le : thread ≤ 32768
  process_ge : 16 ≤ process
  process_le : process ≤ 32768

/-- The sizes from `MISLAB_GENERIC_START` on. -/
def genericSizes : List Nat :=
  [8, 16, 32, 64, 128, 256, 512, 1024, 2048, 4096, 8192, 12288, 16384, 20480, 24576, 28672, 32768]

/-- `MiSlabSizes`. -/
def SlabSizes.size (z : SlabSizes) : Nat → Nat
  | 0 => z.thread
  | 1 => z.process
  | k + 2 => genericSizes.getD k 0

/-- `MISLAB_SIZE_COUNT`. -/
def slabSizeCount : Nat := 19

def mmGetSmallestSlabSizeThatFitsSize (z : SlabSizes) (size : Nat) : Nat :=
  if z.thread = size then 0
  else if z.process = size then 1
  else genericSizes.findIdx (fun x => decide (size ≤ x)) + 2

/-- `sizeof(MISLAB_ITEM)`. -/
def slabHeader : Port → Nat
  | .amd64 => 64
  | .i386 => 56
  | .arm => 56

/-- The size of a pointer. -/
def pointerSize : Port → Nat
  | .amd64 => 8
  | .i386 => 4
  | .arm => 4

def mmpSlabItemDetermineLength (itemSize : Nat) : Nat :=
  if itemSize < pageSize / 4 then pageSize
  else (itemSize * 4 + pageSize - 1) / pageSize * pageSize

def mmpRequiresRbTreeEntry (itemSize : Nat) : Bool := decide (pageSize / 4 ≤ itemSize)

/-! ## Items -/

/-- `MISLAB_ITEM`, with its container. -/
structure SlabItem where
  page : Nat
  length : Nat
  bitmap : Nat → BitVec 64
  nonPaged : Bool
  sizeClass : Nat

/-- `1 << Index`, a shift of an `int` that is then extended to 64 bits. From 32 on it is what the
processor makes of it: x86 takes the shift modulo 32, and on ARM nothing is left. -/
def intBit (p : Port) (index : Nat) : BitVec 64 :=
  match p with
  | .arm => (1#32 <<< index).signExtend 64
  | _ => (1#32 <<< (index % 32)).signExtend 64

/-- The first free slot that the inner loop of `MmpSlabItemTryAllocate` finds in a word. -/
def freeIndex (p : Port) (bitmap : BitVec 64) (count : Nat) : Option Nat :=
  (List.range count).find? fun index => ~~~bitmap &&& intBit p index != 0

namespace SlabItem

/-- `EntriesPerItem`. -/
def entries (p : Port) (it : SlabItem) (itemSize : Nat) : Nat :=
  (it.length - slabHeader p) / itemSize

/-- The outer loop of `MmpSlabItemTryAllocate`, over the words left: the word and the bit found. -/
def searchWords (p : Port) (it : SlabItem) (itemSize : Nat) : Nat → Nat → Option (Option (Nat × Nat))
  | 0, _ => some none
  | left + 1, w =>
    if 4 ≤ w then none
    else
      let last := it.entries p itemSize % 64
      match freeIndex p (it.bitmap w) (if left = 0 ∧ last ≠ 0 then last else 64) with
      | some i => some (some (w, i))
      | none => searchWords p it itemSize left (w + 1)

/-- The address of a slot. -/
def slotAddress (p : Port) (it : SlabItem) (itemSize w i : Nat) : Nat :=
  it.page * pageSize + slabHeader p + (64 * w + i) * itemSize

def setWord (it : SlabItem) (w : Nat) (x : BitVec 64) : SlabItem :=
  { it with bitmap := Function.update it.bitmap w x }

def mmpSlabItemTryAllocate (p : Port) (it : SlabItem) (itemSize : Nat) :
    Option (SlabItem × Option Nat) :=
  (it.searchWords p itemSize ((it.entries p itemSize + 63) / 64) 0).map fun r =>
    match r with
    | none => (it, none)
    | some (w, i) =>
      (it.setWord w (it.bitmap w ||| intBit p i), some (it.slotAddress p itemSize w i))

end SlabItem

/-! ## The pool -/

structure Pool where
  space : PoolSpace
  items : List SlabItem
  tree : List Nat

/-- `MI_SLAB_ITEM_CHECK` and the length of the item, as they lie in memory. -/
def slabCheck (length : Nat) : BitVec 64 := BitVec.ofNat 32 length ++ 0x424C5342#32

/-- `MI_HUGE_MEMORY_CHECK`. -/
def hugeMemoryCheck : BitVec 64 := 0x4D454755484E5242

/-- `sizeof(HUGE_MEMORY_BLOCK)`. -/
def hugeHeader : Nat := 8

/-- `POOL_TAG("SbIt")`. -/
def slabItemTag : Nat := 0x74496253

/-- `POOL_TAG("BHUG")`. -/
def hugeTag : Nat := 0x47554842

namespace Pool

/-- Look for a free slot in the items of the container. -/
def takeSlot (p : Port) (itemSize : Nat) (nonPaged : Bool) (sizeClass : Nat) :
    List SlabItem → Option (List SlabItem × Option Nat)
  | [] => some ([], none)
  | it :: rest =>
    if it.nonPaged = nonPaged ∧ it.sizeClass = sizeClass then
      (it.mmpSlabItemTryAllocate p itemSize).bind fun r =>
        match r.2 with
        | some ptr => some (r.1 :: rest, some ptr)
        | none =>
          (takeSlot p itemSize nonPaged sizeClass rest).map fun r => (it :: r.1, r.2)
    else (takeSlot p itemSize nonPaged sizeClass rest).map fun r => (it :: r.1, r.2)

def mmpAddSlabItemToTree (tree : List Nat) (page : Nat) : List Nat :=
  ((insertItem id tree page).map Cursor.toTree).getD tree

/-- The new slab item of `MmpSlabContainerAllocate`, with its first block. -/
def addItem (p : Port) (s : Pool) (page itemSize : Nat) (nonPaged : Bool) (sizeClass : Nat) :
    Option (Pool × Option Nat) :=
  let length := mmpSlabItemDetermineLength itemSize
  let item : SlabItem := ⟨page, length, fun _ => 0, nonPaged, sizeClass⟩
  (item.mmpSlabItemTryAllocate p itemSize).bind fun r =>
    r.2.map fun ptr =>
      ({ space := (s.space.setWord (page * pageSize) (slabCheck length)).memset ptr 0 itemSize
         items := s.items ++ [r.1]
         tree := if mmpRequiresRbTreeEntry itemSize then mmpAddSlabItemToTree s.tree page
           else s.tree }, some ptr)

/-- `MmpSlabContainerAllocate`; items are never paged. -/
def mmpSlabContainerAllocate (p : Port) (z : SlabSizes) (s : Pool) (e : PoolSupply)
    (nonPaged : Bool) (sizeClass : Nat) : Option (Pool × Option Nat) :=
  let itemSize := z.size sizeClass
  (takeSlot p itemSize nonPaged sizeClass s.items).bind fun r =>
    match r.2 with
    | some ptr => some ({ s with space := s.space.memset ptr 0 itemSize, items := r.1 }, some ptr)
    | none =>
      (s.space.mmAllocatePoolBig p e poolFlagNonPaged
        ((mmpSlabItemDetermineLength itemSize + pageSize - 1) / pageSize) slabItemTag).bind fun r =>
          match r.2 with
          | none => some ({ s with space := r.1 }, none)
          | some page => addItem p { s with space := r.1 } page itemSize nonPaged sizeClass

/-- `MmpAllocateHuge`, which asserts that there is memory. -/
def mmpAllocateHuge (p : Port) (s : Pool) (e : PoolSupply) (nonPaged : Bool) (size : Nat) :
    Option (Pool × Option Nat) :=
  let pageCount := p.add (p.add size hugeHeader) (pageSize - 1) / pageSize
  (s.space.mmAllocatePoolBig p e (if nonPaged then poolFlagNonPaged else 0) pageCount
    hugeTag).bind fun r =>
    r.2.bind fun page =>
      (r.1.touch p page ((hugeHeader + size + pageSize - 1) / pageSize)).map fun space =>
        let ptr := page * pageSize + hugeHeader
        ({ s with space := (space.setWord (page * pageSize) hugeMemoryCheck).memset ptr 0 size },
          some ptr)

/-- `MiSlabAllocate`, which is all of `MmAllocatePool`. -/
def mmAllocatePool (p : Port) (z : SlabSizes) (s : Pool) (e : PoolSupply) (nonPaged : Bool)
    (size : Nat) : Option (Pool × Option Nat) :=
  let index := mmGetSmallestSlabSizeThatFitsSize z size
  if slabSizeCount ≤ index then s.mmpAllocateHuge p e nonPaged size
  else s.mmpSlabContainerAllocate p z e nonPaged index

/-- The test whether the item has no block left. The 32-bit ports also look at the second word of
items in the tree, which has no bits there. -/
def isUnused (it : SlabItem) (itemSize : Nat) : Bool :=
  it.bitmap 0 == 0 && (mmpRequiresRbTreeEntry itemSize ||
    it.bitmap 1 == 0 && it.bitmap 2 == 0 && it.bitmap 3 == 0)

def mmpSlabContainerFree (p : Port) (z : SlabSizes) (s : Pool) (it : SlabItem) (ptr : Nat) :
    Option Pool :=
  let itemSize := z.size it.sizeClass
  let diff := ptr - (it.page * pageSize + slabHeader p)
  if diff % itemSize ≠ 0 then some s
  else
    let slot := diff / itemSize
    let freed := it.setWord (slot / 64) (it.bitmap (slot / 64) &&& ~~~intBit p (slot % 64))
    if isUnused freed itemSize then
      (s.space.mmFreePoolBig p it.page).map fun space =>
        { space := space
          items := s.items.filter fun other => other.page != it.page
          tree := if mmpRequiresRbTreeEntry itemSize then s.tree.erase it.page else s.tree }
    else
      some { s with items := s.items.map fun other => if other.page = it.page then freed else other }

/-- The item that starts at the page. -/
def itemAt (s : Pool) (page : Nat) : Option SlabItem := s.items.find? fun it => it.page == page

/-- The page at which `MiSlabFree` takes the item of a pointer to start. -/
def itemPage (p : Port) (s : Pool) (ptr : Nat) : Nat :=
  match lookUpApproximate id s.tree (ptr / pageSize) with
  | none => ptr / pageSize
  | some c =>
    let data := c.entry * pageSize + slabHeader p
    let length := ((s.itemAt c.entry).map SlabItem.length).getD 0
    if ptr < data ∨ data + length - pointerSize p ≤ ptr then ptr / pageSize else c.entry

/-- `MiSlabFree`, which is all of `MmFreePool`. -/
def mmFreePool (p : Port) (z : SlabSizes) (s : Pool) (ptr : Nat) : Option Pool :=
  if s.space.pte (ptr / pageSize) ≠ .mapped then none
  else if s.space.word (ptr / pageSize * pageSize) = hugeMemoryCheck then
    (s.space.mmFreePoolBig p (ptr / pageSize)).map fun space => { s with space := space }
  else (s.itemAt (s.itemPage p ptr)).bind fun it => s.mmpSlabContainerFree p z it ptr

end Pool

end Boron.Mm
