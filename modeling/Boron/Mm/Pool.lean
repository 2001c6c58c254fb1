import Boron.Mm.Commit
import Boron.Mm.PoolHeader

/-! # Pool space (`mm/pool.c`, `mm/poolsup.c`)

The kernel's pool is a list of regions in the order of their addresses, free or allocated, out of
which whole pages are handed out by first fit. An allocated region starts with a page that is not
mapped: its page table entry names the region's list entry, and `MmFreePoolBig` finds it there from
the address of the first page after it.

Addresses of regions are page numbers; a handle is the address of a list entry. `none` is a call that
does not return: it crashes, fails an assertion or waits for a lock that nobody will release. -/

namespace Boron.Mm

/-! ## Data -/

/-- `MIPOOL_ENTRY`, with its own address. -/
structure PoolEntry where
  handle : Nat
  page : Nat
  size : Nat
  allocated : Bool
  tag : Nat
  userData : Nat
  deriving DecidableEq, Repr

/-- The page table entry of a page of the pool. -/
inductive PoolPte
  | absent (hardware : BitVec 64)
  | mapped
  deriving DecidableEq, Repr

/-- `MmBuildZeroPte`. -/
def PoolPte.zero : PoolPte := .absent 0

/-- `MmBuildPoolHeaderPte`. -/
def PoolPte.header (p : Port) (handle : Nat) : PoolPte :=
  .absent (p.mmBuildPoolHeaderPte (.ofNat 64 handle))

/-- `MmBuildAbsentPte(MM_PAGE_COMMITTED)`. -/
def PoolPte.committed (p : Port) : PoolPte := .absent p.dpteCommitted

/-- The list of regions, the page tables and the memory of the pool, and whether a thread left with
the lock of the kernel's address space. -/
structure PoolSpace where
  entries : List PoolEntry
  headers : PoolHeaders
  pte : Nat → PoolPte
  byte : Nat → BitVec 8
  spaceLocked : Bool

/-- What a call meets on its way: a frame for another page of list entries, room for the page table
of the first page, and how many pages can be mapped before memory runs out. -/
structure PoolSupply where
  headerFrame : Option Nat
  pteRoom : Bool
  frames : Nat
  deriving DecidableEq, Repr

def poolFlagNonPaged : Nat := 1

def poolFlagCallerControlled : Nat := 2

def poolFlagUnmapAnyway : Nat := 4

/-- `MI_EMPTY_TAG`, four blanks. -/
def miEmptyTag : Nat := 0x20202020

/-! ## The list of regions -/

/-- `MmpSplitEntry`, on the first entry of a list, given the result of `MiCreatePoolEntry`: the
headers and the list afterwards, and the entry that is now allocated. -/
def mmpSplitEntry (h : PoolHeaders) (created : Option (PoolHeaders × Nat)) (n tag userData : Nat)
    (e : PoolEntry) (rest : List PoolEntry) :
    Option (PoolHeaders × List PoolEntry × PoolEntry) :=
  let taken := { e with size := n, allocated := true, tag := tag, userData := userData }
  if e.size = n then some (h, taken :: rest, taken)
  else
    created.map fun (h, newEntry) =>
      (h, taken :: ⟨newEntry, e.page + n, e.size - n, false, miEmptyTag, 0⟩ :: rest, taken)

def miReservePoolSpaceTaggedSub (h : PoolHeaders) (created : Option (PoolHeaders × Nat))
    (n tag userData : Nat) : List PoolEntry → Option (PoolHeaders × List PoolEntry × PoolEntry)
  | [] => none
  | e :: rest =>
    if e.allocated || decide (e.size < n) then
      (miReservePoolSpaceTaggedSub h created n tag userData rest).map fun (h, rest, taken) =>
        (h, e :: rest, taken)
    else mmpSplitEntry h created n tag userData e rest

/-- `MmpTryConnectEntryWithItsFlink`. After the last entry comes the list head; what is read as its
address is not that of the end of the pool. -/
def mmpTryConnectEntryWithItsFlink (p : Port) (h : PoolHeaders) (e : PoolEntry) :
    List PoolEntry → PoolHeaders × List PoolEntry
  | [] => (h, [e])
  | f :: rest =>
    if !f.allocated && !e.allocated && f.page == e.page + e.size then
      (h.miDeletePoolEntry p f.handle, { e with size := e.size + f.size } :: rest)
    else (h, e :: f :: rest)

def miFreePoolSpaceSub (p : Port) (h : PoolHeaders) (handle : Nat) :
    List PoolEntry → Option (PoolHeaders × List PoolEntry)
  | [] => none
  | e :: rest =>
    if e.handle = handle then
      if e.allocated then
        some (mmpTryConnectEntryWithItsFlink p h { e with allocated := false, tag := miEmptyTag } rest)
      else none
    else
      (miFreePoolSpaceSub p h handle rest).map fun (h, rest') =>
        if rest.head?.any fun f => f.handle == handle then mmpTryConnectEntryWithItsFlink p h e rest'
        else (h, e :: rest')

namespace PoolSpace

/-! ## Page tables and memory -/

def setPtes (s : PoolSpace) (first count : Nat) (x : PoolPte) : PoolSpace :=
  { s with pte := fun q => if first ≤ q ∧ q < first + count then x else s.pte q }

def setPte (s : PoolSpace) (page : Nat) (x : PoolPte) : PoolSpace :=
  { s with pte := Function.update s.pte page x }

/-- Fill memory with a byte. -/
def memset (s : PoolSpace) (address : Nat) (x : BitVec 8) (count : Nat) : PoolSpace :=
  { s with byte := fun a => if address ≤ a ∧ a < address + count then x else s.byte a }

/-- The 64-bit word at an address. -/
def word (s : PoolSpace) (address : Nat) : BitVec 64 :=
  s.byte (address + 7) ++ s.byte (address + 6) ++ s.byte (address + 5) ++ s.byte (address + 4) ++
    s.byte (address + 3) ++ s.byte (address + 2) ++ s.byte (address + 1) ++ s.byte address

/-- Store a 64-bit word. -/
def setWord (s : PoolSpace) (address : Nat) (x : BitVec 64) : PoolSpace :=
  { s with byte := fun a =>
      if address ≤ a ∧ a < address + 8 then x.extractLsb' (8 * (a - address)) 8 else s.byte a }

/-- `MiMapAnonPages`. Its frames are filled with zeroes, those of paged memory when they come. When
memory runs out, `Address` has passed the pages that were mapped, and the pages after them are
unmapped in their place. -/
def miMapAnonPages (p : Port) (s : PoolSpace) (page n : Nat) (nonPaged : Bool) (frames : Nat) :
    PoolSpace × Bool :=
  let done := min n frames
  let s := (s.setPtes page done (if nonPaged then .mapped else .committed p)).memset
    (page * pageSize) 0 (done * pageSize)
  if done = n then (s, true) else (s.setPtes (page + done) done .zero, false)

/-! ## Regions -/

/-- The list entry that a handle is the address of. -/
def entryOf (s : PoolSpace) (handle : Nat) : Option PoolEntry :=
  s.entries.find? fun e => e.handle == handle

def miFreePoolSpace (p : Port) (s : PoolSpace) (handle : Nat) : Option PoolSpace :=
  (s.entryOf handle).bind fun e =>
    if s.spaceLocked then none
    else if s.pte e.page = .header p handle then
      (miFreePoolSpaceSub p s.headers handle s.entries).map fun (headers, entries) =>
        { s.setPte e.page .zero with headers := headers, entries := entries }
    else none

/-- `MiReservePoolSpaceTagged`: the handle and the first of the pages. Without a page table for the
header it returns with the lock of the address space. -/
def miReservePoolSpaceTagged (p : Port) (s : PoolSpace) (u : PoolSupply) (n tag userData : Nat) :
    Option (PoolSpace × Option (Nat × Nat)) :=
  match miReservePoolSpaceTaggedSub s.headers (s.headers.miCreatePoolEntry p u.headerFrame)
    (p.add n 1) tag userData s.entries with
  | none => some (s, none)
  | some (headers, entries, e) =>
    if s.spaceLocked then none
    else if u.pteRoom then
      if s.pte e.page = .zero then
        some ({ s.setPte e.page (.header p e.handle) with headers := headers, entries := entries },
          some (e.handle, e.page + 1))
      else none
    else
      (miFreePoolSpaceSub p headers e.handle entries).map fun (headers, entries) =>
        ({ s with headers := headers, entries := entries, spaceLocked := true }, none)

def miGetPoolSpaceHandleFromAddress (p : Port) (s : PoolSpace) (page : Nat) : Option Nat :=
  if s.spaceLocked then none
  else
    match s.pte (page - 1) with
    | .absent hardware =>
      if p.mmIsPoolHeaderPte hardware then some (p.mmGetPoolHeaderAddressPte hardware).toNat
      else none
    | .mapped => none

/-- `MmAllocatePoolBig`; the result is the first page of the memory. -/
def mmAllocatePoolBig (p : Port) (s : PoolSpace) (u : PoolSupply) (poolFlags n tag : Nat) :
    Option (PoolSpace × Option Nat) :=
  (s.miReservePoolSpaceTagged p u n tag poolFlags).bind fun r =>
    match r.2 with
    | none => some (r.1, none)
    | some (handle, page) =>
      if hasFlag poolFlags poolFlagCallerControlled then some (r.1, some page)
      else
        let m := r.1.miMapAnonPages p page n (hasFlag poolFlags poolFlagNonPaged) u.frames
        if m.2 then some (m.1, some page)
        else (m.1.miFreePoolSpace p handle).map fun s => (s, none)

def mmFreePoolBig (p : Port) (s : PoolSpace) (page : Nat) : Option PoolSpace :=
  (s.miGetPoolSpaceHandleFromAddress p page).bind fun handle =>
    (s.entryOf handle).bind fun e =>
      if !hasFlag e.userData poolFlagCallerControlled || hasFlag e.userData poolFlagUnmapAnyway
      then (s.setPtes page (e.size - 1) .zero).miFreePoolSpace p handle
      else s.miFreePoolSpace p handle

/-- An access to the pages of a range. A page that is committed comes with the page fault, if the
port knows it to be committed. -/
def touch (p : Port) (s : PoolSpace) (first count : Nat) : Option PoolSpace :=
  if ∀ i < count, s.pte (first + i) = .mapped ∨
      (s.pte (first + i) = .committed p ∧ mmIsCommittedPte p (committedPte p)) then
    some (s.setPtes first count .mapped)
  else none

end PoolSpace

end Boron.Mm
