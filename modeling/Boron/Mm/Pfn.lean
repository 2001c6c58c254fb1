import Boron.Lib.Word
import Mathlib.Data.List.Basic
import Mathlib.Algebra.Ring.Nat

/-! # The page frame database (`mm/pmm.c`, `mm/mpw.c`)

Shallow embedding of the physical memory manager for the 64-bit build. Everything here runs with the
PFN lock held; a function that the source splits by dropping the lock is split at the same place
(`mmZeroOutFirstPFNBegin`/`mmZeroOutFirstPFNEnd`, `mpwBegin`/`mpwEnd`).

`MMPFN` is a natural number, `RefCount` an integer (overflowing a C `int` is undefined), and
`MmTotalFreePages` a `size_t` that wraps at `2 ^ 64`. A failed `ASSERT` or a `KeCrash` is `none`. -/

namespace Boron.Mm

open Function

/-- `MMPFN`, a page frame number. -/
abbrev Pfn := Nat

def pfnInvalid : Pfn := 0xFFFFFFFF

def mmPfnOutOfMemory : Pfn := 0xFFFFFFFE

def pageSize : Nat := 4096

/-- The `PF_TYPE_*` enumeration. -/
inductive PfType
  | free
  | zeroed
  | used
  | reclaim
  | transition
  | mmio
  deriving DecidableEq, Repr

/-- `MMPFDBE`, a page frame database entry. The bit fields keep their C widths through the functions
    that store into them. -/
structure Pfdbe where
  type : PfType
  modified : Bool
  isInModifiedPageList : Bool
  isFileCache : Bool
  offsetUpper : Nat
  nextFrame : Pfn
  prevFrame : Pfn
  refCount : Int
  prototypePte : Nat
  fcb : Nat
  offsetLower : Nat
  deriving DecidableEq, Repr

/-- A frame right after `memset(pPF, 0, sizeof *pPF)`. -/
def Pfdbe.zero : Pfdbe :=
  { type := .free, modified := false, isInModifiedPageList := false, isFileCache := false,
    offsetUpper := 0, nextFrame := 0, prevFrame := 0, refCount := 0, prototypePte := 0, fcb := 0,
    offsetLower := 0 }

/-- The entry with its two links forgotten: everything the list operations leave alone. -/
def Pfdbe.unlinked (e : Pfdbe) : Pfdbe := { e with nextFrame := 0, prevFrame := 0 }

/-- The four lists the frames are threaded on. -/
inductive PfnList
  | zero
  | free
  | standby
  | modified
  deriving DecidableEq, Repr

/-- The pair `MiFirst*PFN`, `MiLast*PFN` of a list. -/
structure PfnEnds where
  first : Pfn
  last : Pfn
  deriving DecidableEq, Repr

/-- The page frame database with the ends of its lists and `MmTotalFreePages`. -/
structure Pfdb where
  frame : Pfn → Pfdbe
  ends : PfnList → PfnEnds
  totalFreePages : Nat

namespace Pfdb

/-- Store into the frame of `pfn`. -/
def modify (db : Pfdb) (pfn : Pfn) (f : Pfdbe → Pfdbe) : Pfdb :=
  { db with frame := update db.frame pfn (f (db.frame pfn)) }

/-- Store the ends of a list. -/
def setEnds (db : Pfdb) (l : PfnList) (e : PfnEnds) : Pfdb :=
  { db with ends := update db.ends l e }

/-- Store `MmTotalFreePages`. -/
def setTotal (db : Pfdb) (n : Nat) : Pfdb :=
  { db with totalFreePages := n }

/-- `MmTotalFreePages++`. -/
def incFree (db : Pfdb) : Pfdb := db.setTotal (addW db.totalFreePages 1)

/-- `MmTotalFreePages--`. -/
def decFree (db : Pfdb) : Pfdb := db.setTotal (subW db.totalFreePages 1)

variable (db : Pfdb) (p q : Pfn) (f : Pfdbe → Pfdbe) (l m : PfnList) (e : PfnEnds) (n : Nat)

@[simp] theorem modify_frame_self : (db.modify p f).frame p = f (db.frame p) := by simp [modify]
theorem modify_frame : (db.modify p f).frame q = if q = p then f (db.frame p) else db.frame q := by
  simp [modify, update_apply]
theorem modify_modify (g : Pfdbe → Pfdbe) :
    (db.modify p f).modify p g = db.modify p fun e => g (f e) := by
  simp [modify]
theorem modify_id : db.modify p (fun e => e) = db := by simp [modify]
@[simp] theorem modify_ends : (db.modify p f).ends = db.ends := rfl
@[simp] theorem modify_total : (db.modify p f).totalFreePages = db.totalFreePages := rfl
@[simp] theorem setEnds_frame : (db.setEnds l e).frame = db.frame := rfl
@[simp] theorem setEnds_total : (db.setEnds l e).totalFreePages = db.totalFreePages := rfl
theorem setEnds_ends : (db.setEnds l e).ends m = if m = l then e else db.ends m := by
  simp [setEnds, update_apply]
@[simp] theorem setTotal_frame : (db.setTotal n).frame = db.frame := rfl
@[simp] theorem setTotal_ends : (db.setTotal n).ends = db.ends := rfl
@[simp] theorem setTotal_total : (db.setTotal n).totalFreePages = n := rfl
@[simp] theorem incFree_frame : db.incFree.frame = db.frame := setTotal_frame db _
@[simp] theorem incFree_ends : db.incFree.ends = db.ends := setTotal_ends db _
@[simp] theorem incFree_total : db.incFree.totalFreePages = addW db.totalFreePages 1 :=
  setTotal_total db _
@[simp] theorem decFree_frame : db.decFree.frame = db.frame := setTotal_frame db _
@[simp] theorem decFree_ends : db.decFree.ends = db.ends := setTotal_ends db _
@[simp] theorem decFree_total : db.decFree.totalFreePages = subW db.totalFreePages 1 :=
  setTotal_total db _

end Pfdb

/-! ## List primitives -/

/-- `MmpUnlinkPfn`: disconnect the neighbours of the frame from it. -/
def mmpUnlinkPfn (db : Pfdb) (pfn : Pfn) : Pfdb :=
  let db1 :=
    if (db.frame pfn).nextFrame ≠ pfnInvalid then
      db.modify (db.frame pfn).nextFrame fun e => { e with prevFrame := (db.frame pfn).prevFrame }
    else db
  if (db1.frame pfn).prevFrame ≠ pfnInvalid then
    db1.modify (db1.frame pfn).prevFrame fun e => { e with nextFrame := (db1.frame pfn).nextFrame }
  else db1

def mmpEnsurePfnIsntEndsOfList (db : Pfdb) (l : PfnList) (current : Pfn) : Pfdb :=
  let pfdbe := db.frame current
  let e := db.ends l
  let e :=
    if e.first = current then
      -- if the next frame is PFN_INVALID, the list is done with entirely
      if pfdbe.nextFrame = pfnInvalid then ⟨pfnInvalid, pfnInvalid⟩ else ⟨pfdbe.nextFrame, e.last⟩
    else e
  let e :=
    if e.last = current then
      if pfdbe.prevFrame = pfnInvalid then ⟨pfnInvalid, pfnInvalid⟩ else ⟨e.first, pfdbe.prevFrame⟩
    else e
  db.setEnds l e

def mmpRemovePfnFromList (db : Pfdb) (l : PfnList) (current : Pfn) : Pfdb :=
  mmpEnsurePfnIsntEndsOfList (mmpUnlinkPfn db current) l current

def mmpAddPfnToList (db : Pfdb) (l : PfnList) (current : Pfn) : Pfdb :=
  if (db.ends l).first = pfnInvalid then
    (db.setEnds l ⟨current, current⟩).modify current fun e =>
      { e with nextFrame := pfnInvalid, prevFrame := pfnInvalid }
  else
    let db1 := db.modify (db.ends l).last fun e => { e with nextFrame := current }
    let db2 := db1.modify current fun e =>
      { e with prevFrame := (db.ends l).last, nextFrame := pfnInvalid }
    db2.setEnds l ⟨(db.ends l).first, current⟩

/-- `MiDetransitionPfn`: bring a frame of the standby or modified list back into use. The list is not
    recorded anywhere, so both lists have their ends patched. -/
def miDetransitionPfn (db : Pfdb) (pfn : Pfn) : Option Pfdb :=
  if pfn = pfnInvalid then none
  else if (db.frame pfn).prototypePte = 0 then none
  else
    let db := mmpUnlinkPfn db pfn
    let db := mmpEnsurePfnIsntEndsOfList db .standby pfn
    let db := mmpEnsurePfnIsntEndsOfList db .modified pfn
    some (db.modify pfn fun e => { e with refCount := 1, nextFrame := 0, prevFrame := 0, type := .used })

/-! ## Allocation -/

/-- `PFDBE_PrototypePte`: the 48 stored bits extended to a kernel address. -/
def pfdbePrototypePte (e : Pfdbe) : Nat := 0xFFFF000000000000 + e.prototypePte

/-- `MmpInitializePfn`. The second component is the address that is overwritten with
    `MM_SLA_NO_DATA` when a transition page is reclaimed. -/
def mmpInitializePfn (db : Pfdb) (pfn : Pfn) : Option (Pfdb × Option Nat) :=
  let e := db.frame pfn
  if e.type = .used then some (db, none)
  else if e.type = .transition ∧ e.prototypePte = 0 then none
  else
    let cleared := if e.type = .transition then some (pfdbePrototypePte e) else none
    let db := db.modify pfn fun e =>
      { e with type := .used, refCount := 1, nextFrame := 0, prevFrame := 0, prototypePte := 0 }
    some (db.decFree, cleared)

/-- `MmpAllocateFromFreeList`: `none` in the first component is `PFN_INVALID`. -/
def mmpAllocateFromFreeList (db : Pfdb) (l : PfnList) : Option (Pfdb × Option Pfn × Option Nat) :=
  if (db.ends l).first = pfnInvalid then some (db, none, none)
  else
    let currPFN := (db.ends l).first
    match mmpInitializePfn (mmpRemovePfnFromList db l currPFN) currPFN with
    | none => none
    | some (db, cleared) =>
      if currPFN = mmPfnOutOfMemory then none else some (db, some currPFN, cleared)

/-- `MiAllocatePhysicalPageWithPfdbLocked`; the last component is `*IsZeroed`. -/
def miAllocatePhysicalPageWithPfdbLocked (db : Pfdb) :
    Option (Pfdb × Option Pfn × Option Nat × Bool) :=
  match mmpAllocateFromFreeList db .zero with
  | none => none
  | some (db, some pfn, cleared) => some (db, some pfn, cleared, true)
  | some (db, none, _) =>
    match mmpAllocateFromFreeList db .free with
    | none => none
    | some (db, some pfn, cleared) => some (db, some pfn, cleared, false)
    | some (db, none, _) =>
      match mmpAllocateFromFreeList db .standby with
      | none => none
      | some (db, pfn, cleared) => some (db, pfn, cleared, false)

def miRemoveOneModifiedPfn (db : Pfdb) : Option (Pfdb × Option Pfn) :=
  match mmpAllocateFromFreeList db .modified with
  | none => none
  | some (db, none, _) => some (db, none)
  | some (db, some pfn, _) =>
    some (db.modify pfn fun e => { e with isInModifiedPageList := false }, some pfn)

/-! ## Frame attributes -/

/-- The address of an entry of a CCB's sparse array. Such addresses lie in the kernel half, so the 48
    bits the frame keeps of one are never all zero. -/
structure EntryPtr where
  addr : Nat
  low_ne_zero : addr % 2 ^ 48 ≠ 0

def mmSetPrototypePtePfn (db : Pfdb) (pfn : Pfn) (prototypePte : EntryPtr) : Option Pfdb :=
  if pfn = pfnInvalid then none
  else some (db.modify pfn fun e => { e with prototypePte := prototypePte.addr % 2 ^ 48 })

def mmSetCacheDetailsPfn (db : Pfdb) (pfn : Pfn) (fcb offset : Nat) : Option Pfdb :=
  if pfn = pfnInvalid then none
  else
    let offset := offset / pageSize
    some (db.modify pfn fun e =>
      { e with fcb := fcb % 2 ^ 48, offsetLower := offset % 2 ^ 32,
               offsetUpper := (offset / 2 ^ 32) % 2 ^ 16, isFileCache := true, modified := false })

def mmSetModifiedPfn (db : Pfdb) (pfn : Pfn) : Option Pfdb :=
  if pfn = pfnInvalid then none
  else if (db.frame pfn).type ≠ .used then none
  else some (db.modify pfn fun e => { e with modified := true })

/-- `MmSetModifiedPage`, which does not look at the type. -/
def mmSetModifiedPage (db : Pfdb) (pfn : Pfn) : Option Pfdb :=
  if pfn = pfnInvalid then none
  else some (db.modify pfn fun e => { e with modified := true })

/-! ## References -/

/-- The part of `MmFreePhysicalPage` that runs once the last reference is gone. -/
def freeLastReference (db : Pfdb) (pfn : Pfn) : Pfdb :=
  let db := db.modify pfn fun e => { e with isInModifiedPageList := false }
  if (db.frame pfn).prototypePte ≠ 0 then
    if (db.frame pfn).modified then
      -- the page stays marked "used" until the modified page writer gets to it
      (mmpAddPfnToList db .modified pfn).modify pfn fun e => { e with isInModifiedPageList := true }
    else
      ((mmpAddPfnToList db .standby pfn).modify pfn fun e => { e with type := .transition }).incFree
  else
    ((mmpAddPfnToList db .free pfn).modify pfn fun e => { e with type := .free }).incFree

def mmFreePhysicalPage (db : Pfdb) (pfn : Pfn) : Option Pfdb :=
  let type := (db.frame pfn).type
  if pfn = pfnInvalid then none
  else if ¬ (type = .used ∨ type = .reclaim ∨ type = .mmio) then none
  else
    let db := db.modify pfn fun e => { e with refCount := e.refCount - 1 }
    if (db.frame pfn).refCount < 0 then none
    else if (db.frame pfn).refCount ≤ 0 then
      if type = .mmio then none else some (freeLastReference db pfn)
    else some db

def miPageAddReferenceWithPfdbLocked (db : Pfdb) (pfn : Pfn) : Option Pfdb :=
  if pfn = pfnInvalid then none
  else
    let db := db.modify pfn fun e => { e with refCount := e.refCount + 1 }
    if (db.frame pfn).refCount ≤ 1 then
      if (db.frame pfn).refCount ≠ 1 then none else miDetransitionPfn db pfn
    else some db

/-! ## The modified page writer -/

def miTransformPageToStandbyPfn (db : Pfdb) (pfn : Pfn) : Pfdb :=
  let e := db.frame pfn
  if 0 < e.refCount ∨ e.type ≠ .used then db
  else if e.isInModifiedPageList then db
  else
    ((mmpAddPfnToList db .standby pfn).modify pfn fun e =>
      { e with type := .transition, modified := false }).incFree

def miReinsertIntoModifiedList (db : Pfdb) (pfn : Pfn) : Pfdb :=
  let e := db.frame pfn
  if 0 < e.refCount ∨ e.type ≠ .used then db
  else if !e.isInModifiedPageList then
    (mmpAddPfnToList db .modified pfn).modify pfn fun e =>
      { e with isInModifiedPageList := true, modified := true }
  else db

/-- One turn of the loop of `MmModifiedPageWriterWorker` up to the point where it drops the PFN lock
    to write a page out. The second component is the page it now writes. -/
def mpwBegin (db : Pfdb) : Option (Pfdb × Option Pfn) :=
  match miRemoveOneModifiedPfn db with
  | none => none
  | some (db, none) => some (db, none)
  | some (db, some pfn) =>
    if !(db.frame pfn).modified then some (miTransformPageToStandbyPfn db pfn, none)
    else
      some (db.modify pfn fun e => { e with refCount := e.refCount + 1, modified := false }, some pfn)

/-- The rest of that turn, after the write returned with success or failure. -/
def mpwEnd (db : Pfdb) (pfn : Pfn) (success : Bool) : Pfdb :=
  let db := db.modify pfn fun e => { e with refCount := e.refCount - 1 }
  if success then miTransformPageToStandbyPfn db pfn else miReinsertIntoModifiedList db pfn

/-! ## Zeroing free pages -/

/-- The first locked half of `MmZeroOutFirstPFN`; the second component is the frame it took. -/
def mmZeroOutFirstPFNBegin (db : Pfdb) : Option (Pfdb × Option Pfn) :=
  if (db.ends .free).first = pfnInvalid then some (db, none)
  else
    let pfn := (db.ends .free).first
    if (db.frame pfn).type = .zeroed then some (db, none)
    else if (db.frame pfn).type ≠ .free then none
    else
      let db := db.modify pfn fun e => { e with type := .zeroed }
      some (mmpRemovePfnFromList db .free pfn, some pfn)

/-- The second locked half of `MmZeroOutFirstPFN`. -/
def mmZeroOutFirstPFNEnd (db : Pfdb) (pfn : Pfn) : Pfdb := mmpAddPfnToList db .zero pfn

/-- `MmZeroOutFirstPFN` with nobody else running. -/
def mmZeroOutFirstPFN (db : Pfdb) : Option Pfdb :=
  match mmZeroOutFirstPFNBegin db with
  | none => none
  | some (db, none) => some db
  | some (db, some pfn) => some (mmZeroOutFirstPFNEnd db pfn)

/-! ## Initialization -/

/-- The `LOADER_MEM_*` enumeration. -/
inductive LoaderMemType
  | free
  | bad
  | reserved
  | acpiReclaimable
  | loaderReclaimable
  | loadedProgram
  deriving DecidableEq, Repr

structure LoaderMemoryRegion where
  base : Nat
  size : Nat
  type : LoaderMemType
  deriving DecidableEq, Repr

/-- The region types whose pages get an entry in the database. -/
def LoaderMemoryRegion.isTracked (r : LoaderMemoryRegion) : Bool :=
  r.type = .free || r.type = .loaderReclaimable || r.type = .loadedProgram

/-- The local variables of the second pass of `MiInitPMM`, with the database it fills. -/
structure InitPass where
  db : Pfdb
  lastPfnOfPrevBlock : Pfn
  freePageCount : Nat

/-- The body of the page loop for a page of a `LOADER_MEM_FREE` region. -/
def initFreePage (r : LoaderMemoryRegion) (st : InitPass) (j : Nat) : InitPass :=
  let currPFN := (r.base + j) / pageSize
  let db := st.db
  let db :=
    if (db.ends .free).first = pfnInvalid then
      db.setEnds .free ⟨currPFN, (db.ends .free).last⟩
    else db
  let db := db.modify currPFN fun _ => .zero
  let db :=
    if j = 0 then
      let db := db.modify currPFN fun e => { e with prevFrame := st.lastPfnOfPrevBlock }
      if st.lastPfnOfPrevBlock ≠ pfnInvalid then
        db.modify st.lastPfnOfPrevBlock fun e => { e with nextFrame := currPFN }
      else db
    else db.modify currPFN fun e => { e with prevFrame := currPFN - 1 }
  let db := db.modify currPFN fun e =>
    { e with nextFrame := if r.size ≤ j + pageSize then pfnInvalid else currPFN + 1 }
  { db := db, lastPfnOfPrevBlock := currPFN, freePageCount := st.freePageCount + 1 }

/-- The body of the page loop for a page the loader may hand back later. -/
def initReclaimPage (r : LoaderMemoryRegion) (st : InitPass) (j : Nat) : InitPass :=
  let currPFN := (r.base + j) / pageSize
  { st with db := st.db.modify currPFN fun _ => { Pfdbe.zero with type := .reclaim, refCount := 1 } }

/-- The offsets `j = 0, PAGE_SIZE, ..` below the region's size. -/
def pageOffsets (r : LoaderMemoryRegion) : List Nat :=
  (List.range ((r.size + pageSize - 1) / pageSize)).map (· * pageSize)

/-- One turn of the region loop of the second pass of `MiInitPMM`. -/
def initRegion (st : InitPass) (r : LoaderMemoryRegion) : InitPass :=
  if r.isTracked then
    if r.type = .free then (pageOffsets r).foldl (initFreePage r) st
    else (pageOffsets r).foldl (initReclaimPage r) st
  else st

/-- Repeat `MmZeroOutFirstPFN`. -/
def zeroOutMany : Nat → Pfdb → Option Pfdb
  | 0, db => some db
  | n + 1, db => (mmZeroOutFirstPFN db).bind (zeroOutMany n)

/-- The database before `MiInitPMM`: no list has a frame, and the frames hold whatever was there. -/
def emptyPfdb (frame : Pfn → Pfdbe) : Pfdb :=
  { frame := frame, ends := fun _ => ⟨pfnInvalid, pfnInvalid⟩, totalFreePages := 0 }

/-- The second pass of `MiInitPMM`, over the memory map that the first pass left. -/
def initPass (frame : Pfn → Pfdbe) (regions : List LoaderMemoryRegion) : InitPass :=
  let st := regions.foldl initRegion ⟨emptyPfdb frame, pfnInvalid, 0⟩
  { st with db := st.db.setEnds .free ⟨(st.db.ends .free).first, st.lastPfnOfPrevBlock⟩ }

/-- `MiInitPMM`, from its second pass on. -/
def miInitPMM (frame : Pfn → Pfdbe) (regions : List LoaderMemoryRegion) : Option Pfdb :=
  let st := initPass frame regions
  (zeroOutMany 200 st.db).map fun db => db.setTotal st.freePageCount

end Boron.Mm
