import Boron.Mm.Mappable

/-! # Faults on mapped memory (`mm/fault.c`, `mm/commit.c`, `mm/vad.c`, `mm/*/ptfree.c`)

The page faults, the decommit and the release of a VAD, over the frames and objects of
`Boron.Mm.Mappable`. As in `Boron.Mm.Commit` every call is one step, and `none` is a call that does
not return: it hangs, fails an assertion or runs into a page table that is not there. -/

namespace Boron.Mm

variable {T Page : Type}

/-- `((Va & PageMask) - VaBase + MappedOffset) / PAGE_SIZE`. -/
def Vad.pageOffset (v : Vad) (va : Nat) : Nat :=
  addW (va - va % pageSize - v.startVa) v.sectionOffset / pageSize

/-! ## Clean-up of page tables -/

namespace PageTables

/-- The loop of `MiCleanUpVad`; its `continue` also counts the page the loop header adds. -/
def cleanUpPtes (p : Port) (n : Nat) : Nat → Nat → Nat → PageTables → Option PageTables
  | 0, _, _, _ => none
  | fuel + 1, i, va, m =>
    if i < n then
      if (m.enterTable p (fun _ => false) false i va).2 then
        (m.entry p (va / pageSize)).bind fun e =>
          if mmIsPresentPte e then none
          else
            (m.write p (va / pageSize) mmBuildZeroPte).bind
              (cleanUpPtes p n fuel (i + 1) (p.add va pageSize))
      else
        cleanUpPtes p n fuel (i + p.sub (p.skipTable va) va / pageSize + 1) (p.skipTable va) m
    else some m

/-- `MmpIsPteListCompletelyEmpty`. -/
def isEmptyTable (p : Port) (table : Nat → Pte) : Bool :=
  (List.range p.ptesPerPage).all fun i => table i = mmBuildZeroPte

/-- The test on the last level in `MmpFreeUnusedMappingLevelsInCurrentMapPML`: it returns early at a
zero entry. -/
def isFullTable (p : Port) (table : Nat → Pte) : Bool :=
  (List.range p.ptesPerPage).all fun i => table i ≠ mmBuildZeroPte

/-- Take away the page tables that a test picks. -/
def dropTables (m : PageTables) (picks : Nat → (Nat → Pte) → Bool) : PageTables :=
  ⟨fun number => (m.table number).filter fun table => !picks number table⟩

/-- The page tables below one entry of the PML4. -/
def tablesPerSlot : Nat := 0x40000

/-- `MiFreeUnusedMappingLevelsInCurrentMap` of amd64: is the page table below one of the PML4 entries
that it goes through? -/
def inSlots (startVa n number : Nat) : Bool :=
  let first := startVa / pageSize / Port.amd64.ptesPerPage / tablesPerSlot
  decide (first ≤ number / tablesPerSlot) &&
    decide (number / tablesPerSlot < first + (n + 0x7FFFFFF) / 0x8000000)

/-- The loop of `MiFreeUnusedMappingLevelsInCurrentMap` of arm: each round tests the page table of
`StartVa`, whichever table it is to free. -/
def freeUnusedArm (first : Nat) : Nat → Nat → PageTables → Option PageTables
  | 0, _, m => some m
  | left + 1, number, m =>
    if (m.table number).isNone then freeUnusedArm first left (number + 1) m
    else
      (m.table first).bind fun table =>
        freeUnusedArm first left (number + 1)
          (if isEmptyTable .arm table then m.dropTables fun k _ => k == number else m)

/-- `MiFreeUnusedMappingLevelsInCurrentMap`. -/
def miFreeUnusedMappingLevels (p : Port) (m : PageTables) (startVa n : Nat) : Option PageTables :=
  let first := startVa / pageSize / p.ptesPerPage
  match p with
  | .amd64 =>
    some (m.dropTables fun number table =>
      inSlots startVa n number && (isEmptyTable p table || isFullTable p table))
  | .i386 =>
    some (m.dropTables fun number table =>
      decide (first ≤ number) && decide (number < first + (n + 0xFFFFF) / 0x100000) &&
        isEmptyTable p table)
  | .arm => freeUnusedArm first ((n + 1023) / 1024) first m

end PageTables

namespace Machine

def setMemory (s : Machine T Page) (proc : Nat) (m : UserMemory T) : Machine T Page :=
  { s with memory := Function.update s.memory proc m }

def setTables (s : Machine T Page) (proc : Nat) (m : PageTables) : Machine T Page :=
  s.setMemory proc { s.memory proc with tables := m }

/-- `*PtePtr = Pte` for the page of `va`. -/
def setPte (p : Port) (s : Machine T Page) (proc va : Nat) (e : Pte) : Option (Machine T Page) :=
  ((s.memory proc).tables.write p (va / pageSize) e).map (s.setTables proc)

/-! ## Page faults -/

section

variable [Zero Page] [DecidableEq T]

omit [DecidableEq T] in
def mmpHandleFaultCommittedPage (p : Port) (s : Machine T Page) (e : Supply Page) (proc va : Nat) :
    Option (FaultStatus × Machine T Page) :=
  match s.mmAllocatePhysicalPage e.newPage with
  | (s, none) => some (.refaultSleep, s)
  | (s, some f) => (s.setPte p proc va (.present f false true)).map fun s => (.success, s)

omit [Zero Page] [DecidableEq T] in
/-- `MmpAssignPfnToAddress`; the reference goes back if there is no page table to be had. -/
def mmpAssignPfnToAddress (p : Port) (s : Machine T Page) (room : Nat → Bool) (proc va f : Nat) :
    Option (FaultStatus × Machine T Page) :=
  let r := (s.memory proc).tables.mmCheckPteLocation p room va true
  if r.2 then
    ((s.setTables proc r.1).setPte p proc va (.present f false true)).map fun s => (.success, s)
  else some (.refaultSleep, s.mmFreePhysicalPage f)

omit [DecidableEq T] in
/-- The page for `MmpHandleFaultCommittedMappedPage`. -/
def fetchPage (s : Machine T Page) (e : Supply Page) (o i : Nat) : Machine T Page × PageAnswer :=
  let r := s.mmGetPageMappable e o i
  if r.2 = .moreProcessingRequired then r.1.mmReadPageMappable e o i else r

omit [DecidableEq T] in
/-- `MmpHandleFaultCommittedMappedPage`. The reference to the object that it holds meanwhile is not
the last one. -/
def mmpHandleFaultCommittedMappedPage (p : Port) (s : Machine T Page) (e : Supply Page)
    (proc va o i : Nat) : Option (FaultStatus × Machine T Page) :=
  match s.fetchPage e o i with
  | (s, .page f) => s.mmpAssignPfnToAddress p e.room proc va f
  | (s, _) => some (.failed, s)

omit [DecidableEq T] in
/-- The rest of `MiNormalFault` for a page that is committed. -/
def faultIn (p : Port) (s : Machine T Page) (e : Supply Page) (proc va : Nat) (v : Vad) :
    Option (FaultStatus × Machine T Page) :=
  match v.mappedObject with
  | some o => s.mmpHandleFaultCommittedMappedPage p e proc va o (v.pageOffset va)
  | none => s.mmpHandleFaultCommittedPage p e proc va

/-- `MiNormalFault`, on a user address. -/
def miNormalFault (p : Port) (s : Machine T Page) (e : Supply Page) (proc : Nat) (t : T) (va : Nat) :
    Option (FaultStatus × Machine T Page) :=
  let m := s.memory proc
  if !m.canLockVadList t then none
  else
    match p.mmLookUpVadByAddress m.vads va with
    | none => some (.accessViolation, s)
    | some v =>
      let pte := m.tables.entry p (va / pageSize)
      if pte = none ∨ pte = some mmBuildZeroPte then
        if v.committed then
          let r := m.tables.mmCheckPteLocation p e.room va true
          if r.2 then (s.setTables proc r.1).faultIn p e proc va v else some (.refaultSleep, s)
        else some (.accessViolation, s)
      else if pte.any (mmIsCommittedPte p) then s.faultIn p e proc va v
      else some (.accessViolation, s.setMemory proc { m with vadListOwner := some t })

omit [DecidableEq T] in
/-- `MiWriteFault` on memory of an object. The entry is overwritten, and the frame that it mapped
keeps the reference. -/
def writeMapped (p : Port) (s : Machine T Page) (e : Supply Page) (proc va o i : Nat) :
    Option (FaultStatus × Machine T Page) :=
  (s.mmPrepareWriteMappable e o i).bind fun r =>
    if r.2 then
      match r.1.mmGetPageMappable e o i with
      | (s, .page new) => (s.setPte p proc va (.present new true true)).map fun s => (.success, s)
      | (s, _) => some (.failed, s)
    else some (.failed, r.1)

/-- `MiWriteFault`, on a user page that is mapped. -/
def miWriteFault (p : Port) (s : Machine T Page) (e : Supply Page) (proc : Nat) (t : T)
    (va f : Nat) (writable : Bool) : Option (FaultStatus × Machine T Page) :=
  let m := s.memory proc
  if writable then some (.success, s)
  else if !m.canLockVadList t then none
  else
    match p.mmLookUpVadByAddress m.vads va with
    | none => some (.accessViolation, s)
    | some v =>
      if hasFlag v.protection 2 then
        match v.mappedObject with
        | none => (s.setPte p proc va (.present f true true)).map fun s => (.success, s)
        | some o => s.writeMapped p e proc va o (v.pageOffset va)
      else some (.accessViolation, s)

def mmPageFault (p : Port) (s : Machine T Page) (e : Supply Page) (proc : Nat) (t : T) (va : Nat)
    (write : Bool) : Option (FaultStatus × Machine T Page) :=
  match (s.memory proc).tables.entry p (va / pageSize) with
  | some (.present f writable _) =>
    if write then s.miWriteFault p e proc t va f writable else some (.success, s)
  | _ =>
    (s.miNormalFault p e proc t va).map fun r =>
      (if r.1 = .success && write then .refault else r.1, r.2)

end

/-! ## Decommit and release -/

def miDecommitVad (p : Port) (s : Machine T Page) (room : Nat → Bool) (proc : Nat) (v : Vad)
    (startVa n : Nat) (setDecommittedPte : Bool) : Option (Machine T Page) :=
  let m := s.memory proc
  let whole : Bool := v.startVa = startVa && v.node.size = n
  let isVadCommitted := v.committed && !whole
  (m.tables.decommitPtes p room (isVadCommitted && setDecommittedPte) setDecommittedPte n (n + 1)
    0 startVa []).map fun r =>
      (s.setMemory proc { m with
        vads := if whole then clearCommitted m.vads v.startVa else m.vads
        tables := r.1 }).freeAll r.2

/-- `MiReleaseVad`, with `MiCleanUpVad`; the free address range is not kept here. -/
def miReleaseVad (p : Port) (s : Machine T Page) (proc : Nat) (c : Cursor Vad) :
    Option (Machine T Page) :=
  let m := s.memory proc
  let node := c.entry.node
  (m.tables.cleanUpPtes p node.size (node.size + 1) 0 node.startVa).bind fun tables =>
    (tables.miFreeUnusedMappingLevels p node.startVa node.size).bind fun tables =>
      let s := s.setMemory proc { m with vads := c.remove, tables := tables }
      match c.entry.mappedObject with
      | none => some s
      | some o => s.obDereferenceObject o

variable [DecidableEq T]

def mmDecommitVirtualMemory (p : Port) (s : Machine T Page) (room : Nat → Bool) (proc : Nat) (t : T)
    (startVa n : Nat) : Option (Status × Machine T Page) :=
  let m := s.memory proc
  if !p.mmIsAddressRangeValid startVa (p.mul n pageSize) || n == 0 then
    some (.invalidParameter, s)
  else if !m.canLockVadList t then none
  else
    match p.vadOfRange m.vads startVa n with
    | none => some (.conflictingAddresses, s)
    | some v => (s.miDecommitVad p room proc v startVa n true).map fun s => (.success, s)

/-- `MmReleaseVirtualMemory`, which asserts that the VAD is not committed. -/
def mmReleaseVirtualMemory (p : Port) (s : Machine T Page) (proc : Nat) (t : T) (va : Nat) :
    Option (Status × Machine T Page) :=
  let m := s.memory proc
  if !m.canLockVadList t then none
  else
    match lookUpApproximate Vad.startVa m.vads va with
    | none => some (.memoryNotReserved, s)
    | some c =>
      if c.entry.startVa ≠ va then some (.vaNotAtBase, s)
      else if c.entry.committed then none
      else (s.miReleaseVad p proc c).map fun s => (.success, s)

end Machine

end Boron.Mm
