import Boron.Mm.Pte
import Boron.Mm.Vad

/-! # Commitment of user memory (`mm/commit.c`, `mm/fault.c`)

A page of a VAD is committed by the flag of the VAD, by a marker in its page table entry, or because
it is there already. `MmCommitVirtualMemory`, `MmDecommitVirtualMemory` and `MiNormalFault` each read
this off the page tables, entry by entry and past the page tables that do not exist.

Every call here holds the mutex of the process' VAD list and the lock of the address space while it
works, so it is one step; `none` is a call that never returns, because it waits for a mutex that is
never released or runs into a page table that is not there. The mutex can be taken again by the
thread that has it. -/

namespace Boron.Mm

variable {T : Type}

/-- What commitment needs of a process. `vadListOwner` is the thread that has returned from a call
with the mutex of the VAD list. -/
structure UserMemory (T : Type) where
  vads : List Vad
  tables : PageTables
  vadListOwner : Option T

inductive FaultStatus
  | success
  | refault
  | refaultSleep
  | accessViolation
  | failed
  deriving DecidableEq, Repr

namespace Port

/-- `MmIsAddressRangeValid` in user mode. -/
def mmIsAddressRangeValid (p : Port) (va size : Nat) : Bool :=
  size != 0 && decide (va ≤ p.add va size) && decide (p.add va size ≤ p.userSpaceEnd)

def mmLookUpVadByAddress (p : Port) (vads : List Vad) (va : Nat) : Option Vad :=
  ((lookUpApproximate Vad.startVa vads va).map Cursor.entry).filter fun v =>
    decide (va < p.add v.startVa (p.mul v.node.size pageSize))

/-- The VAD of both ends of the range, if it is the same one. -/
def vadOfRange (p : Port) (vads : List Vad) (startVa n : Nat) : Option Vad :=
  match p.mmLookUpVadByAddress vads startVa,
      p.mmLookUpVadByAddress vads (p.sub (p.add startVa (p.mul n pageSize)) 1) with
  | some v, some w => if v.startVa = w.startVa then some v else none
  | _, _ => none

/-- The first address past the page table of `va`. -/
def skipTable (p : Port) (va : Nat) : Nat :=
  let next := p.add va p.tableSpan
  next - next % p.tableSpan

/-- `i == 0 || ((uintptr_t)Pte & (PAGE_SIZE - 1)) == 0`. -/
def entersTable (p : Port) (i va : Nat) : Bool := i == 0 || va / pageSize % p.ptesPerPage == 0

end Port

/-! ## The three loops -/

namespace PageTables

/-- The head of each loop's body: is there a page table for the page of this round? -/
def enterTable (p : Port) (room : Nat → Bool) (generate : Bool) (i va : Nat) (m : PageTables) :
    PageTables × Bool :=
  if p.entersTable i va then m.mmCheckPteLocation p room va generate else (m, true)

/-- The test of one entry in `MmCommitVirtualMemory`: may the page be committed? -/
def mayCommit (p : Port) (isVadCommitted : Bool) (e : Pte) : Bool :=
  !(mmIsPresentPte e || mmIsCommittedPte p e) && !(isVadCommitted && !mmIsDecommittedPte p e)

/-- The first loop of `MmCommitVirtualMemory`: may all pages of the range be committed? Every round
advances, so `n + 1` rounds are enough. -/
def checkRange (p : Port) (m : PageTables) (isVadCommitted : Bool) (n : Nat) :
    Nat → Nat → Nat → Option Bool
  | 0, _, _ => none
  | fuel + 1, i, va =>
    if i < n then
      if (m.enterTable p (fun _ => false) false i va).2 then
        (m.entry p (va / pageSize)).bind fun e =>
          if mayCommit p isVadCommitted e then
            checkRange p m isVadCommitted n fuel (i + 1) (p.add va pageSize)
          else some false
      else if isVadCommitted then some false
      else
        checkRange p m isVadCommitted n fuel (i + p.sub (p.skipTable va) va / pageSize)
          (p.skipTable va)
    else some true

/-- The second loop of `MmCommitVirtualMemory`, over the pages left; it stops when there is no room
for a page table. -/
def commitPtes (p : Port) (room : Nat → Bool) : Nat → Nat → Nat → PageTables →
    Option (PageTables × Bool)
  | 0, _, _, m => some (m, true)
  | left + 1, i, va, m =>
    let (m, found) := m.enterTable p room true i va
    if found then
      (m.write p (va / pageSize) (committedPte p)).bind
        (commitPtes p room left (i + 1) (p.add va pageSize))
    else some (m, false)

/-- The frames that a page gives back when its entry is overwritten. -/
def freedFrames : Pte → List Nat
  | .present pfn _ true => [pfn]
  | _ => []

/-- The loop of `MiDecommitVad`, with the frames it frees. -/
def decommitPtes (p : Port) (room : Nat → Bool) (generate setDecommittedPte : Bool) (n : Nat) :
    Nat → Nat → Nat → PageTables → List Nat → Option (PageTables × List Nat)
  | 0, _, _, _, _ => none
  | fuel + 1, i, va, m, freed =>
    if i < n then
      let (m, found) := m.enterTable p room generate i va
      if found then
        (m.entry p (va / pageSize)).bind fun e =>
          (m.write p (va / pageSize)
            (if setDecommittedPte then decommittedPte p else mmBuildZeroPte)).bind fun m =>
              decommitPtes p room generate setDecommittedPte n fuel (i + 1) (p.add va pageSize) m
                (freed ++ freedFrames e)
      else
        decommitPtes p room generate setDecommittedPte n fuel
          (i + p.sub (p.skipTable va) va / pageSize) (p.skipTable va) m freed
    else some (m, freed)

end PageTables

/-- Clear the `Committed` flag of the VAD that starts at `va`. -/
def clearCommitted (vads : List Vad) (va : Nat) : List Vad :=
  vads.map fun w => if w.startVa = va then { w with committed := false } else w

namespace UserMemory

variable [DecidableEq T]

/-- Does `MmLockVadList` return on this thread? -/
def canLockVadList (s : UserMemory T) (t : T) : Bool :=
  s.vadListOwner = none || s.vadListOwner = some t

/-! ## Commit and decommit -/

def mmCommitVirtualMemory (p : Port) (s : UserMemory T) (t : T) (room : Nat → Bool)
    (startVa n protection : Nat) : Option (Status × UserMemory T) :=
  if !p.mmIsAddressRangeValid startVa (p.mul n pageSize) then some (.invalidParameter, s)
  else if !s.canLockVadList t then none
  else
    match p.vadOfRange s.vads startVa n with
    | none => some (.conflictingAddresses, s)
    | some v =>
      if protection = 0 ∧ v.protection = 0 then some (.invalidParameter, s)
      else
        (s.tables.checkRange p v.committed n (n + 1) 0 startVa).bind fun free =>
          if free then
            (s.tables.commitPtes p room n 0 startVa).map fun r =>
              (if r.2 then .success else .insufficientMemory, { s with tables := r.1 })
          else some (.conflictingAddresses, s)

omit [DecidableEq T] in
def miDecommitVad (p : Port) (s : UserMemory T) (room : Nat → Bool) (v : Vad) (startVa n : Nat)
    (setDecommittedPte : Bool) : Option (UserMemory T) :=
  let whole : Bool := v.startVa = startVa && v.node.size = n
  let isVadCommitted := v.committed && !whole
  (s.tables.decommitPtes p room (isVadCommitted && setDecommittedPte) setDecommittedPte n (n + 1)
    0 startVa []).map fun r =>
      { s with
        vads := if whole then clearCommitted s.vads v.startVa else s.vads
        tables := r.1 }

def mmDecommitVirtualMemory (p : Port) (s : UserMemory T) (t : T) (room : Nat → Bool)
    (startVa n : Nat) : Option (Status × UserMemory T) :=
  if !p.mmIsAddressRangeValid startVa (p.mul n pageSize) || n == 0 then
    some (.invalidParameter, s)
  else if !s.canLockVadList t then none
  else
    match p.vadOfRange s.vads startVa n with
    | none => some (.conflictingAddresses, s)
    | some v => (s.miDecommitVad p room v startVa n true).map fun s => (.success, s)

/-! ## Page faults -/

omit [DecidableEq T] in
/-- Map the frame that the allocator or the mapped object gives, if any:
`MmpHandleFaultCommittedPage` and `MmpHandleFaultCommittedMappedPage`. -/
def mapFrame (p : Port) (s : UserMemory T) (v : Vad) (va : Nat) (frame : Option Nat)
    (writable : Bool) : Option (FaultStatus × UserMemory T) :=
  match frame with
  | none => some (if v.mappedObject = none then .refaultSleep else .failed, s)
  | some pfn =>
    (s.tables.write p (va / pageSize) (.present pfn writable true)).map fun m =>
      (.success, { s with tables := m })

/-- `MiNormalFault`, on a user address. The page that is not committed is the one return without
`MmUnlockVadList`. -/
def miNormalFault (p : Port) (s : UserMemory T) (t : T) (room : Nat → Bool) (va : Nat)
    (frame : Option Nat) : Option (FaultStatus × UserMemory T) :=
  if !s.canLockVadList t then none
  else
    match p.mmLookUpVadByAddress s.vads va with
    | none => some (.accessViolation, s)
    | some v =>
      let pte := s.tables.entry p (va / pageSize)
      if pte = none ∨ pte = some mmBuildZeroPte then
        if v.committed then
          let (m, found) := s.tables.mmCheckPteLocation p room va true
          if found then mapFrame p { s with tables := m } v va frame false
          else some (.refaultSleep, s)
        else some (.accessViolation, s)
      else if pte.any (mmIsCommittedPte p) then mapFrame p s v va frame false
      else some (.accessViolation, { s with vadListOwner := some t })

/-- `MiWriteFault`, on a user page that is mapped. -/
def miWriteFault (p : Port) (s : UserMemory T) (t : T) (va pfn : Nat) (writable : Bool)
    (frame : Option Nat) : Option (FaultStatus × UserMemory T) :=
  if writable then some (.success, s)
  else if !s.canLockVadList t then none
  else
    match p.mmLookUpVadByAddress s.vads va with
    | none => some (.accessViolation, s)
    | some v =>
      if hasFlag v.protection 2 then
        match v.mappedObject with
        | none => mapFrame p s v va (some pfn) true
        | some _ => mapFrame p s v va frame true
      else some (.accessViolation, s)

/-- `MmPageFault`. The checks on the access itself, which end it with nothing changed, are left
out. -/
def mmPageFault (p : Port) (s : UserMemory T) (t : T) (room : Nat → Bool) (va : Nat)
    (write : Bool) (frame : Option Nat) : Option (FaultStatus × UserMemory T) :=
  match s.tables.entry p (va / pageSize) with
  | some (.present pfn writable _) =>
    if write then s.miWriteFault p t va pfn writable frame else some (.success, s)
  | _ =>
    (s.miNormalFault p t room va frame).map fun r =>
      (if r.1 = .success && write then .refault else r.1, r.2)

end UserMemory

end Boron.Mm
