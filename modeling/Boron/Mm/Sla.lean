import Boron.Lib.PageTree
import Mathlib.Data.BitVec

/-! # The sparse linear array (`mm/sla.c`)

A sparse linear array maps page indices to pointer-sized entries. The first entries sit in the
structure itself; the others sit in pages of entries under four indirect roots, the root of level
`L` being followed by `L` further pages of page frame numbers. Missing pages are made on the way
down when an entry is assigned.

A physical page is `1024` words of 32 bits: a page frame number is one word, an entry is one word
on a 32-bit build and two on a 64-bit one. A fresh page is filled with `0xFF` bytes, which reads
as `PFN_INVALID` in the one view and as `MM_SLA_NO_DATA` in the other. The page allocator is the
surroundings: for each page the code asks for it offers one that is not in use, or none. -/

namespace Boron.Mm.Sla

open Function

/-- The two builds, by the width of `MMSLA_ENTRY`, which is `uintptr_t`. -/
inductive Width
  | bits32
  | bits64
  deriving DecidableEq, Repr

def Width.bits : Width → Nat
  | .bits32 => 32
  | .bits64 => 64

/-- `SLA_ENTRIES_PER_PAGE`, `PAGE_SIZE / sizeof(MMSLA_ENTRY)`. -/
def entriesPerPage (w : Width) : Nat := 4096 / (w.bits / 8)

/-- `PFN_ENTRIES_PER_PAGE`, `PAGE_SIZE / sizeof(MMPFN)`. -/
def pfnsPerPage : Nat := 1024

/-- `MM_SLA_DIRECT_ENTRY_COUNT` and `MM_SLA_INDIRECT_LEVELS`. -/
def directEntryCount : Nat := 64

def indirectLevels : Nat := 4

/-- `MMPFN` and `PFN_INVALID`. -/
abbrev Mmpfn := BitVec 32

def pfnInvalid : Mmpfn := BitVec.allOnes 32

/-- `MMSLA_ENTRY`, `MM_SLA_NO_DATA` and `MM_SLA_OUT_OF_MEMORY`. -/
abbrev Entry (w : Width) := BitVec w.bits

def noData (w : Width) : Entry w := BitVec.allOnes w.bits

def outOfMemory (w : Width) : Entry w := BitVec.allOnes w.bits - 1

/-! ## Pages -/

/-- A physical page as words of 32 bits. -/
abbrev Page := Nat → BitVec 32

/-- A page after `memset(Page, 0xFF, PAGE_SIZE)`. -/
def Page.filled : Page := fun _ => BitVec.allOnes 32

/-- `Entries[i]` of a page seen as an array of entries. -/
def Page.entry : (w : Width) → Page → Nat → Entry w
  | .bits32, page, i => page i
  | .bits64, page, i => page (2 * i + 1) ++ page (2 * i)

/-- `Entries[i] = value` on a page seen as an array of entries. -/
def Page.setEntry : (w : Width) → Page → Nat → Entry w → Page
  | .bits32, page, i, value => update page i value
  | .bits64, page, i, value =>
    update (update page (2 * i) (BitVec.extractLsb' 0 32 value)) (2 * i + 1)
      (BitVec.extractLsb' 32 32 value)

/-! ## The array and the memory around it -/

/-- `MMSLA` with the physical memory, and the pages that the allocator has handed out to anyone. -/
structure State (w : Width) where
  direct : Nat → Entry w
  indirect : Nat → Mmpfn
  page : Mmpfn → Page
  inUse : List Mmpfn

/-- Where an entry is kept: what `OutPrototypePtePointer` receives and `EntryReferenceFunc` is
called on. -/
inductive Place
  | direct (i : Nat)
  | page (pfn : Mmpfn) (i : Nat)
  deriving DecidableEq, Repr

/-- What a call leaves behind: the state, the entry it returns and the place it reached. -/
structure Outcome (w : Width) where
  state : State w
  entry : Entry w
  place : Option Place

namespace State

variable {w : Width}

def mmInitializeSla (s : State w) : State w :=
  { s with
    direct := fun i => if i < directEntryCount then noData w else s.direct i
    indirect := fun i => if i < indirectLevels then pfnInvalid else s.indirect i }

/-- `MmpAllocatePhysicalPageSlaInitialized`. `MmAllocatePhysicalPage` never returns a page that is
in use, and returns `PFN_INVALID` when it has none. -/
def mmpAllocatePhysicalPageSlaInitialized (s : State w) (offer : Option Mmpfn) :
    State w × Mmpfn :=
  match offer with
  | none => (s, pfnInvalid)
  | some pfn =>
    if pfn = pfnInvalid ∨ pfn ∈ s.inUse then (s, pfnInvalid)
    else
      ({ s with page := update s.page pfn Page.filled, inUse := pfn :: s.inUse }, pfn)

/-- `Entries[d] = next` on a page seen as an array of page frame numbers. -/
def link (s : State w) (pfn : Mmpfn) (d : Nat) (next : Mmpfn) : State w :=
  { s with page := update s.page pfn (update (s.page pfn) d next) }

def linkRoot (s : State w) (level : Nat) (next : Mmpfn) : State w :=
  { s with indirect := update s.indirect level next }

def store (s : State w) (pfn : Mmpfn) (i : Nat) (value : Entry w) : State w :=
  { s with page := update s.page pfn ((s.page pfn).setEntry w i value) }

/-- The loop that skips the levels below the one that holds the entry: the level and the index
within it, with `n` levels left to try. -/
def findLevel : (n level current maxOffset : Nat) → Option (Nat × Nat)
  | 0, _, _, _ => none
  | n + 1, level, current, maxOffset =>
    if maxOffset ≤ current then
      findLevel n (level + 1) (current - maxOffset) (maxOffset * pfnsPerPage)
    else some (level, current)

/-- The loop that navigates the chain up until the last level, with `n` pages of page frame
numbers left. `offer n` is what the allocator answers there. -/
def navigate (modify : Bool) (offer : Nat → Option Mmpfn) :
    (n : Nat) → State w → Mmpfn → Nat → State w × Except (Entry w) (Mmpfn × Nat)
  | 0, s, pfn, index => (s, .ok (pfn, index))
  | n + 1, s, pfn, index =>
    let next := s.page pfn (index % pfnsPerPage)
    if next = pfnInvalid then
      if modify then
        let (s, next) := s.mmpAllocatePhysicalPageSlaInitialized (offer n)
        if next = pfnInvalid then (s, .error (outOfMemory w))
        else
          navigate modify offer n (s.link pfn (index % pfnsPerPage) next) next
            (index / pfnsPerPage)
      else (s, .error (noData w))
    else navigate modify offer n s next (index / pfnsPerPage)

/-- The root of a level, made if it is missing and the call modifies. -/
def openRoot (modify : Bool) (offer : Option Mmpfn) (s : State w) (level : Nat) :
    State w × Except (Entry w) Mmpfn :=
  if s.indirect level = pfnInvalid then
    if modify then
      let (s, pfn) := s.mmpAllocatePhysicalPageSlaInitialized offer
      if pfn = pfnInvalid then (s, .error (outOfMemory w)) else (s.linkRoot level pfn, .ok pfn)
    else (s, .error (noData w))
  else (s, .ok (s.indirect level))

/-- The page that holds an entry and the entry's index within it. -/
def reach (modify : Bool) (offer : Nat → Option Mmpfn) (s : State w) (level current : Nat) :
    State w × Except (Entry w) (Mmpfn × Nat) :=
  match s.openRoot modify (offer level) level with
  | (s, .error e) => (s, .error e)
  | (s, .ok pfn) => navigate modify offer level s pfn current

/-- `MmpLookUpEntrySlaPlusModify`; `newValue` is the `NewValue` of a call with `Modify` set. -/
def mmpLookUpEntrySlaPlusModify (s : State w) (entryIndex : Nat) (newValue : Option (Entry w))
    (offer : Nat → Option Mmpfn) : Outcome w :=
  if entryIndex < directEntryCount then
    let s := match newValue with
      | some value => { s with direct := update s.direct entryIndex value }
      | none => s
    ⟨s, s.direct entryIndex, some (.direct entryIndex)⟩
  else
    match findLevel indirectLevels 0 (entryIndex - directEntryCount) (entriesPerPage w) with
    | none => ⟨s, noData w, none⟩
    | some (level, current) =>
      match s.reach newValue.isSome offer level current with
      | (s, .error e) => ⟨s, e, none⟩
      | (s, .ok (pfn, index)) =>
        let s := match newValue with
          | some value => s.store pfn index value
          | none => s
        ⟨s, (s.page pfn).entry w index, some (.page pfn index)⟩

/-- `MmLookUpEntrySla`; no page is asked for, so it needs no allocator. -/
def mmLookUpEntrySla (s : State w) (entryIndex : Nat) : Outcome w :=
  s.mmpLookUpEntrySlaPlusModify entryIndex none fun _ => none

def mmAssignEntrySla (s : State w) (entryIndex : Nat) (newValue : Entry w)
    (offer : Nat → Option Mmpfn) : Outcome w :=
  s.mmpLookUpEntrySlaPlusModify entryIndex (some newValue) offer

end State

end Boron.Mm.Sla
