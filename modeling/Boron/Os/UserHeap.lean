import Boron.Lib.Circular
import Boron.Rtl.Elf

/-! # The heap of a user program

A heap maps arenas and cuts them into blocks; a request that does not fit into an arena gets a region
of its own. Every block starts with an `OS_HEAP_HEADER`, which is on the list of all blocks and, as
long as the block is free, on the free list.

A header is known by its address, and so are the list entries inside it: `BlockListEntry` stands at
its start, `FreeListEntry` after that. `WasMapped` is the lowest bit of the word that
`FreeListEntry.Flink` takes up in a free block. -/

namespace Boron.Os

open Function

open Rtl (Target)

def minFreeGap : Nat := 16

def defaultArenaSize : Nat := 128 * 1024

/-- `sizeof(OS_HEAP_HEADER)`: two list entries, then eight bytes for the size and the flags. -/
def headerSize (t : Target) : Nat := 4 * t.wordBytes + 8

/-- The offset of `FreeListEntry`. -/
def freeListEntry (t : Target) : Nat := 2 * t.wordBytes

/-- The width of `BlockSize`. On the 64-bit target it shares its word with the flags. -/
def blockSizeBits : Target → Nat
  | .amd64 => 62
  | .i386 => 32
  | .arm => 32

/-- `&Header->Data[n]`. -/
def dataAt (t : Target) (header n : Nat) : Nat := (header + headerSize t + n) % 2 ^ t.wordBits

/-- The size rounded up to 8 bytes. -/
def alignedSize (t : Target) (size : Nat) : Nat := (size + 7) % 2 ^ t.wordBits / 8 * 8

/-- `OS_HEAP`, with the headers that are in memory. -/
structure OsHeap where
  /-- `&Heap->BlockList`. -/
  blockList : Nat
  /-- `&Heap->FreeList`. -/
  freeList : Nat
  /-- The `BlockListEntry`s, by their addresses. -/
  block : Links Nat
  /-- The `FreeListEntry`s, by their addresses. -/
  free : Links Nat
  /-- The fields of the header at an address. -/
  blockSize : Nat → Nat
  isFree : Nat → Bool
  isArenaStart : Nat → Bool

namespace OsHeap

variable (t : Target)

/-- `Header->WasMapped`. -/
def wasMapped (h : OsHeap) (header : Nat) : Bool := h.free.next (header + freeListEntry t) % 2 = 1

/-- A store to `Header->WasMapped`. -/
def setWasMapped (h : OsHeap) (header : Nat) (b : Bool) : OsHeap :=
  let entry := header + freeListEntry t
  { h with free := ⟨update h.free.next entry (h.free.next entry / 2 * 2 + b.toNat),
      h.free.prev⟩ }

/-- A store to `Header->BlockSize`. -/
def setBlockSize (h : OsHeap) (header n : Nat) : OsHeap :=
  { h with blockSize := update h.blockSize header (n % 2 ^ blockSizeBits t) }

def setIsFree (h : OsHeap) (header : Nat) (b : Bool) : OsHeap :=
  { h with isFree := update h.isFree header b }

def setIsArenaStart (h : OsHeap) (header : Nat) (b : Bool) : OsHeap :=
  { h with isArenaStart := update h.isArenaStart header b }

/-- `memset(Header, 0, sizeof(OS_HEAP_HEADER))`. -/
def clearHeader (h : OsHeap) (header : Nat) : OsHeap :=
  let entry := header + freeListEntry t
  { h with
    block := ⟨update h.block.next header 0, update h.block.prev header 0⟩
    free := ⟨update h.free.next entry 0, update h.free.prev entry 0⟩
    blockSize := update h.blockSize header 0
    isFree := update h.isFree header false
    isArenaStart := update h.isArenaStart header false }

def osAddRegionHeap (h : OsHeap) (address size : Nat) : OsHeap :=
  let h := (h.setBlockSize t address
    ((size + (2 ^ t.wordBits - headerSize t)) % 2 ^ t.wordBits)).setIsFree address true
  { h with
    block := h.block.insertHead h.blockList address
    free := h.free.insertHead h.freeList (address + freeListEntry t) }

/-- `OSCreateMappedRegionHeap`, once the region is mapped. -/
def osCreateMappedRegionHeap (h : OsHeap) (address size : Nat) (isArenaStart : Bool) : OsHeap :=
  (h.osAddRegionHeap t address size).setIsArenaStart address isArenaStart

/-! ## Allocating -/

/-- The walk over the free list: the first entry whose block is large enough. -/
def firstFit (h : OsHeap) (size : Nat) : Nat → Nat → Option (Option Nat)
  | 0, _ => none
  | fuel + 1, entry =>
    if entry = h.freeList then some none
    else if h.blockSize (entry - freeListEntry t) < size then
      h.firstFit size fuel (h.free.next entry)
    else some (some entry)

/-- A cleared header goes on both lists, behind that of a free block. -/
def insertBehind (h : OsHeap) (header newHeader : Nat) : OsHeap :=
  let h := h.clearHeader t newHeader
  { h with
    block := h.block.insertHead header newHeader
    free := h.free.insertHead (header + freeListEntry t) (newHeader + freeListEntry t) }

/-- Cut what a request leaves of a block off as a block of its own. -/
def splitBlock (h : OsHeap) (header size : Nat) : OsHeap :=
  let newHeader := dataAt t header size
  let h := h.insertBehind t header newHeader
  ((h.setBlockSize t newHeader (h.blockSize header - headerSize t - size)).setIsFree newHeader
    true).setBlockSize t header size

/-- Take a block off the free list. -/
def takeBlock (h : OsHeap) (header : Nat) (wasMapped : Bool) : OsHeap :=
  let h : OsHeap := { h with free := h.free.remove (header + freeListEntry t) }
  (h.setIsFree header false).setWasMapped t header wasMapped

/-- A request that is served from the free list. -/
def allocateFrom (h : OsHeap) (header size : Nat) : OsHeap :=
  let h := if size + minFreeGap + headerSize t ≤ h.blockSize header then h.splitBlock t header size
    else h
  h.takeBlock t header false

/-- A request that is served by a region of its own. -/
def allocateLarge (h : OsHeap) (address regionSize : Nat) : OsHeap :=
  (h.osCreateMappedRegionHeap t address regionSize false).takeBlock t address true

/-- The search of `OSAllocateHeap`, which leaves requests out that are too large for an arena. -/
def search (h : OsHeap) (size fuel : Nat) : Option (Option Nat) :=
  if size < defaultArenaSize - headerSize t then h.firstFit t size fuel (h.free.next h.freeList)
  else some none

/-- What a request gets whose search found an entry: the heap, the pointer, and no mapped region. -/
def serve (h : OsHeap) (size entry : Nat) : OsHeap × Nat × List (Nat × Nat) :=
  let header := entry - freeListEntry t
  (h.allocateFrom t header size, dataAt t header 0, [])

/-- The loop of `OSAllocateHeap`: the heap, the pointer it returns, and the regions it mapped, the last
one first. Each mapping call takes the next answer, an address or a failure. -/
def allocateLoop (size fuel : Nat) :
    List (Option Nat) → OsHeap → Option (OsHeap × Nat × List (Nat × Nat))
  | [], h => (h.search t size fuel).bind fun found => found.map (h.serve t size)
  | answer :: answers, h =>
    (h.search t size fuel).bind fun
      | some entry => some (h.serve t size entry)
      | none =>
        match answer with
        | none => some (h, 0, [])
        | some address =>
          if size < defaultArenaSize - headerSize t then
            (allocateLoop size fuel answers
              (h.osCreateMappedRegionHeap t address defaultArenaSize true)).map fun r =>
                (r.1, r.2.1, r.2.2 ++ [(address, defaultArenaSize)])
          else
            let regionSize := (size + headerSize t) % 2 ^ t.wordBits
            some (h.allocateLarge t address regionSize, dataAt t address 0, [(address, regionSize)])

def osAllocateHeap (fuel : Nat) (h : OsHeap) (size : Nat) (answers : List (Option Nat)) :
    Option (OsHeap × Nat × List (Nat × Nat)) :=
  if size = 0 then some (h, 0, []) else allocateLoop t (alignedSize t size) fuel answers h

/-! ## Freeing -/

def osTryMergeNext (h : OsHeap) (header : Nat) : OsHeap × Bool :=
  let otherHeader := h.block.next header
  if ¬ h.isFree header then (h, false)
  else if otherHeader = h.blockList then (h, false)
  else if dataAt t header (h.blockSize header) ≠ otherHeader then (h, false)
  else if ¬ h.isFree otherHeader ∨ h.wasMapped t otherHeader ∨ h.isArenaStart otherHeader then
    (h, false)
  else
    let h := h.setBlockSize t header
      (h.blockSize header + (headerSize t + h.blockSize otherHeader))
    ({ h with
      block := h.block.remove otherHeader
      free := h.free.remove (otherHeader + freeListEntry t) }, true)

/-- Mark a block as free and put it on the free list. -/
def releaseBlock (h : OsHeap) (header : Nat) : OsHeap :=
  let h := h.setIsFree header true
  { h with free := h.free.insertTail h.freeList (header + freeListEntry t) }

/-- Merge the block before a block with it; the header that the block belongs to then. -/
def mergePrev (h : OsHeap) (header : Nat) : OsHeap × Nat :=
  let otherHeader := h.block.prev header
  if otherHeader = h.blockList then (h, header)
  else
    let r := h.osTryMergeNext t otherHeader
    (r.1, if r.2 then otherHeader else header)

/-- `OSFreeHeap`: the heap and the region it gives back, with its size; `none` is an abort. -/
def osFreeHeap (h : OsHeap) (memory : Nat) : Option (OsHeap × Option (Nat × Nat)) :=
  if memory = 0 then some (h, none)
  else
    let header := memory - headerSize t
    if h.isFree header then none
    else if h.wasMapped t header then
      some ({ h with block := h.block.remove header },
        some (header, (headerSize t + h.blockSize header) % 2 ^ t.wordBits))
    else
      let h := (h.releaseBlock t header).osTryMergeNext t header
      let (h, header) := h.1.mergePrev t header
      if h.isArenaStart header ∧ (h.blockSize header + headerSize t) % 2 ^ t.wordBits
          = defaultArenaSize then
        some ({ h with
            block := h.block.remove header
            free := h.free.remove (header + freeListEntry t) },
          some (header, (headerSize t + h.blockSize header) % 2 ^ t.wordBits))
      else some (h, none)

def osInitializeHeap (h : OsHeap) : OsHeap :=
  { h with block := h.block.initHead h.blockList, free := h.free.initHead h.freeList }

end OsHeap

end Boron.Os
