import Boron.Mm.Heap

/-! # VADs and the virtual memory services (`mm/vad.c`, `mm/commit.c`, `mm/view.c`, `mm/svcs.c`)

A process has a heap of free address ranges and a tree of VADs. The services below reserve, commit,
map, decommit and release ranges, with the addresses, sizes and flags user mode passes. What decommit
and clean-up do to page tables is kept as a log of the addresses whose table entries they write; what
the tables hold is not modelled, and every question the code asks them is answered by `Tables`, which
may depend on the log so far. A service returns `none` where the kernel crashes. -/

namespace Boron.Mm

/-! ## Flags -/

def memReserve : Nat := 0x1
def memCommit : Nat := 0x2
def memShared : Nat := 0x4
def memTopDown : Nat := 0x8
def memDecommit : Nat := 0x10
def memRelease : Nat := 0x20
def memCow : Nat := 0x40
def memFixed : Nat := 0x80
def memOverride : Nat := 0x100
def memPartial : Nat := 0x200

/-- `PAGE_READ | PAGE_WRITE | PAGE_EXECUTE`. -/
def pageProtections : Nat := 7

/-- `flags & mask`, as a truth value. -/
def hasFlag (flags mask : Nat) : Bool := flags &&& mask != 0

/-- `!(flags & ~mask)`. -/
def onlyFlags (flags mask : Nat) : Bool := flags ||| mask == mask

/-! ## Data -/

/-- `MMVAD`. -/
structure Vad where
  node : AddressNode
  committed : Bool
  isPrivate : Bool
  protection : Nat
  mappedObject : Option Nat
  sectionOffset : Nat
  deriving DecidableEq, Repr

/-- The key of the VAD tree. -/
def Vad.startVa (v : Vad) : Nat := v.node.startVa

/-- What the page tables answer, given the entries written so far. -/
structure Tables where
  /-- `MmCheckPteLocation`: is there (or could there be made) a page table for this address? -/
  present : List Nat → Nat → Bool
  /-- Does `MiFreeUnusedMappingLevelsInCurrentMap` free something below this PML4 slot? -/
  freesBelow : List Nat → Nat → Bool

/-- A process' address space, and the log of page table entries written, latest first. -/
structure AddressSpace where
  heap : HeapTree
  vads : List Vad
  written : List Nat
  deriving DecidableEq, Repr

/-- What a call meets on its way: pool allocations, the overlay `MmCreateOverlayObject` makes, copies
    from and to user memory, page tables. -/
structure Surroundings where
  pool1 : Bool
  pool2 : Bool
  pool3 : Bool
  overlay : Option Nat
  copyIn : Bool
  copyOut : Bool
  pteConflict : Bool
  tables : Tables

/-! ## Page table loops -/

/-- The bytes one page of PTEs maps, `PAGE_SIZE * PAGE_SIZE / sizeof(MMPTE)`. -/
def tableSpan : Nat := 0x200000

/-- The bytes one PML4 slot maps. -/
def slotSpan : Nat := 0x8000000000

/-- `PTES_COVERED_BY_PML4`. -/
def slotPages : Nat := 0x8000000

/-- The first address past the page table of `va`. -/
def skipTable (va : Nat) : Nat :=
  let next := addW va tableSpan
  next - next % tableSpan

/-- `i == 0 || ((uintptr_t)Pte & (PAGE_SIZE - 1)) == 0`. -/
def entersTable (i va : Nat) : Bool := i == 0 || va / pageSize % 512 == 0

/-- The loop of `MiDecommitVad`. Each round but the first advances at least a page, so `n + 1` rounds
    are enough. -/
def decommitPtes (t : Tables) (generate : Bool) (n : Nat) : Nat → Nat → Nat → List Nat → List Nat
  | 0, _, _, log => log
  | fuel + 1, i, va, log =>
    if i < n then
      -- making the missing levels writes entries on the way to `va`
      let log := if entersTable i va && generate then va :: log else log
      if entersTable i va && !t.present log va then
        decommitPtes t generate n fuel (i + subW (skipTable va) va / pageSize) (skipTable va) log
      else decommitPtes t generate n fuel (i + 1) (addW va pageSize) (va :: log)
    else log

/-- The loop of `MiCleanUpVad`; its `continue` also counts the page the loop header adds. -/
def cleanUpPtes (t : Tables) (n : Nat) : Nat → Nat → Nat → List Nat → List Nat
  | 0, _, _, log => log
  | fuel + 1, i, va, log =>
    if i < n then
      if entersTable i va && !t.present log va then
        cleanUpPtes t n fuel (i + subW (skipTable va) va / pageSize + 1) (skipTable va) log
      else cleanUpPtes t n fuel (i + 1) (addW va pageSize) (va :: log)
    else log

/-- `MiFreeUnusedMappingLevelsInCurrentMap`: the slots below which it frees something. -/
def freeUnusedLevels (t : Tables) (startVa n : Nat) (log : List Nat) : List Nat :=
  (List.range ((n + slotPages - 1) / slotPages)).foldl (fun log k =>
    let slot := startVa / slotSpan % 512 + k
    if t.freesBelow log slot then slot * slotSpan :: log else log) log

/-! ## Decommit, clean-up and release of a VAD -/

def miDecommitVad (t : Tables) (vad : Vad) (startVa n : Nat) (setDecommittedPte : Bool)
    (log : List Nat) : Vad × List Nat :=
  let vad :=
    if vad.node.startVa = startVa ∧ vad.node.size = n then { vad with committed := false } else vad
  (vad, decommitPtes t (vad.committed && setDecommittedPte) n (n + 1) 0 startVa log)

def miCleanUpVad (t : Tables) (node : AddressNode) (log : List Nat) : List Nat :=
  freeUnusedLevels t node.startVa node.size (cleanUpPtes t node.size (node.size + 1) 0 node.startVa log)

/-- `MiReleaseVad`, the VAD being out of its tree already; `none` is its `KeCrash`. -/
def miReleaseVad (t : Tables) (heap : HeapTree) (log : List Nat) (node : AddressNode) :
    Option (HeapTree × List Nat) :=
  let r := mmFreeAddressSpace heap node
  if r.1 = .success then some (r.2, miCleanUpVad t node log) else none

/-! ## `MmOverrideAddressRange` -/

/-- The VAD loop: `left` holds the VADs passed, nearest first. -/
def overrideVads (t : Tables) (startVa n : Nat) : List Vad → List Vad → HeapTree → List Nat →
    Option (List Vad × HeapTree × List Nat)
  | left, [], heap, log => some (left.reverse, heap, log)
  | left, vad :: right, heap, log =>
    let endVa := addW startVa (mulW n pageSize)
    let vadVa := vad.node.startVa
    let vadEnd := vad.node.endVa
    if endVa ≤ vadVa ∨ vadEnd ≤ startVa then overrideVads t startVa n (vad :: left) right heap log
    else if startVa ≤ vadVa ∧ vadEnd ≤ endVa then
      -- complete overlap: the whole VAD goes
      let (_, log) := miDecommitVad t vad vadVa vad.node.size false log
      match miReleaseVad t heap log vad.node with
      | none => none
      | some (heap, log) => overrideVads t startVa n left right heap log
    else if vadVa < startVa ∧ endVa < vadEnd then
      -- split in two; the committed flag is off while the middle is decommitted
      let offset := addW vad.sectionOffset (subW endVa vadVa)
      let vad2 : Vad :=
        { vad with
          node := ⟨endVa, subW vadEnd endVa / pageSize⟩
          sectionOffset := if vad.mappedObject.isSome then offset else 0 }
      let (_, log) := miDecommitVad t { vad with committed := false } startVa n false log
      let vad1 : Vad := { vad with node := ⟨vadVa, subW startVa vadVa / pageSize⟩ }
      let c : Cursor Vad := ⟨left, vad1, right⟩
      some (((c.insertItem Vad.startVa vad2).getD c).toTree, heap, log)
    else if vadVa < startVa ∧ vadEnd ≤ endVa then
      let (_, log) :=
        miDecommitVad t { vad with committed := false } startVa (subW vadEnd startVa / pageSize) false
          log
      let vad1 : Vad := { vad with node := ⟨vadVa, subW startVa vadVa / pageSize⟩ }
      overrideVads t startVa n (vad1 :: left) right heap log
    else if startVa ≤ vadVa ∧ endVa < vadEnd then
      let offset := subW endVa vadVa
      let (_, log) :=
        miDecommitVad t { vad with committed := false } vadVa (offset / pageSize) false log
      let vad1 : Vad :=
        { vad with
          node := ⟨addW vadVa offset, subW vad.node.size (offset / pageSize)⟩
          sectionOffset :=
            if vad.mappedObject.isSome then addW vad.sectionOffset offset else vad.sectionOffset }
      overrideVads t startVa n (vad1 :: left) right heap log
    else none

/-- How one walk over the heap ends: at the end of the tree, or at a node split in two. -/
inductive HeapWalk
  | done (tree : HeapTree)
  | split (tree : HeapTree) (temp : AddressNode)
  deriving DecidableEq, Repr

/-- The heap loop, up to its end or the next restart. -/
def overrideHeapWalk (startVa endVa : Nat) : List AddressNode → List AddressNode → Option HeapWalk
  | left, [] => some (.done left.reverse)
  | left, node :: right =>
    if endVa ≤ node.startVa ∨ node.endVa ≤ startVa then
      overrideHeapWalk startVa endVa (node :: left) right
    else if startVa ≤ node.startVa ∧ node.endVa ≤ endVa then overrideHeapWalk startVa endVa left right
    else if node.startVa < startVa ∧ endVa < node.endVa then
      some (.split (left.reverse ++ ⟨node.startVa, subW startVa node.startVa / pageSize⟩ :: right)
        ⟨endVa, subW node.endVa endVa / pageSize⟩)
    else if node.startVa < startVa ∧ node.endVa ≤ endVa then
      overrideHeapWalk startVa endVa
        (⟨node.startVa, subW startVa node.startVa / pageSize⟩ :: left) right
    else if startVa ≤ node.startVa ∧ endVa < node.endVa then
      let offset := subW endVa node.startVa
      overrideHeapWalk startVa endVa
        (⟨addW node.startVa offset, subW node.size (offset / pageSize)⟩ :: left) right
    else none

/-- The heap loop. A split frees the upper part, ignoring the status, and starts over; `TempVad3` is
    gone then, so a second split dereferences a null pointer. -/
def overrideHeap (startVa endVa : Nat) (heap : HeapTree) : Option HeapTree :=
  match overrideHeapWalk startVa endVa [] heap with
  | none => none
  | some (.done tree) => some tree
  | some (.split tree temp) =>
    match overrideHeapWalk startVa endVa [] (mmFreeAddressSpace tree temp).2 with
    | some (.done tree) => some tree
    | _ => none

/-- The trims before the range is handed out. -/
def trimRange (startVa n : Nat) : AddressNode :=
  let (startVa, n) := if startVa = 0 then (pageSize, subW n 1) else (startVa, n)
  let (startVa, n) :=
    if startVa < mmFirstUserPage then (addW startVa pageSize, subW n 1) else (startVa, n)
  ⟨startVa, if mmLastUserPage ≤ addW startVa (mulW n pageSize) then subW n 1 else n⟩

/-- `MmOverrideAddressRange`: the status, the address space and the node handed out. -/
def mmOverrideAddressRange (e : Surroundings) (s : AddressSpace) (startVa n : Nat) :
    Option (Status × AddressSpace × Option AddressNode) :=
  if e.pool1 && e.pool2 && e.pool3 then
    match overrideVads e.tables startVa n [] s.vads s.heap s.written with
    | none => none
    | some (vads, heap, log) =>
      match overrideHeap startVa (addW startVa (mulW n pageSize)) heap with
      | none => none
      | some heap => some (.success, ⟨heap, vads, log⟩, some (trimRange startVa n))
  else some (.insufficientMemory, s, none)

/-! ## Reserving -/

/-- The VAD `MiInitializeAndInsertVad` fills in. -/
def newVad (node : AddressNode) (flags protection : Nat) : Vad where
  node := node
  committed := hasFlag flags memCommit
  isPrivate := !hasFlag flags memShared
  protection := protection
  mappedObject := none
  sectionOffset := 0

/-- The node `MmReserveVirtualMemoryVad` gets, by override, at a fixed address, or anywhere. -/
def reserveNode (e : Surroundings) (s : AddressSpace) (n flags startVa : Nat) :
    Option (Status × AddressSpace × Option AddressNode) :=
  if hasFlag flags memFixed && hasFlag flags memOverride then mmOverrideAddressRange e s startVa n
  else if hasFlag flags memFixed then
    let r := mmAllocateAddressRange s.heap startVa n e.pool1 e.pool2
    some (r.status, { s with heap := r.tree }, r.outNode)
  else
    let r := mmAllocateAddressSpace s.heap n (hasFlag flags memTopDown) e.pool1
    some (r.status, { s with heap := r.tree }, r.outNode)

/-- `MmReserveVirtualMemoryVad`: the VAD is returned in hand, in its tree. A VAD that cannot be
    inserted crashes the kernel. -/
def mmReserveVirtualMemoryVad (e : Surroundings) (s : AddressSpace) (n flags protection startVa : Nat) :
    Option (Status × AddressSpace × Option (Cursor Vad)) :=
  match reserveNode e s n flags startVa with
  | none => none
  | some (status, s, none) => some (status, s, none)
  | some (status, s, some node) =>
    match insertItem Vad.startVa s.vads (newVad node flags protection) with
    | none => none
    | some c => some (status, s, some c)

def mmReserveVirtualMemory (e : Surroundings) (s : AddressSpace) (n startVa flags protection : Nat) :
    Option (Status × AddressSpace) :=
  match mmReserveVirtualMemoryVad e s n flags protection startVa with
  | none => none
  | some (status, s, none) => some (status, s)
  | some (status, s, some c) => some (status, { s with vads := c.toTree })

/-! ## Committing and decommitting -/

def mmUserSpaceEnd : Nat := 0x7FFFFFFFFFFF

/-- `MmIsAddressRangeValid` in user mode. With the end in the user half, so is the start. -/
def mmIsAddressRangeValid (va size : Nat) : Bool :=
  size != 0 && decide (va ≤ addW va size) && decide (addW va size ≤ mmUserSpaceEnd)

def mmLookUpVadByAddress (vads : List Vad) (va : Nat) : Option (Cursor Vad) :=
  (lookUpApproximate Vad.startVa vads va).filter fun c => decide (va < c.entry.node.endVa)

/-- The VAD that the whole range lies in, as `MmCommitVirtualMemory` and `MmDecommitVirtualMemory`
    look for it. -/
def vadOfRange (vads : List Vad) (startVa n : Nat) : Option (Cursor Vad) :=
  match mmLookUpVadByAddress vads startVa,
      mmLookUpVadByAddress vads (subW (addW startVa (mulW n pageSize)) 1) with
  | some c, some d => if c.left.length = d.left.length then some c else none
  | _, _ => none

/-- `MmCommitVirtualMemory`, which changes neither the heap nor the VADs. -/
def mmCommitVirtualMemory (e : Surroundings) (s : AddressSpace) (startVa n protection : Nat) :
    Status :=
  if !mmIsAddressRangeValid startVa (mulW n pageSize) then .invalidParameter
  else
    match vadOfRange s.vads startVa n with
    | none => .conflictingAddresses
    | some c =>
      if protection = 0 ∧ c.entry.protection = 0 then .invalidParameter
      else if e.pteConflict then .conflictingAddresses
      else if e.pool1 then .success
      else .insufficientMemory

def mmDecommitVirtualMemory (e : Surroundings) (s : AddressSpace) (startVa n : Nat) :
    Status × AddressSpace :=
  if !mmIsAddressRangeValid startVa (mulW n pageSize) || n == 0 then (.invalidParameter, s)
  else
    match vadOfRange s.vads startVa n with
    | none => (.conflictingAddresses, s)
    | some c =>
      let (vad, log) := miDecommitVad e.tables c.entry startVa n true s.written
      (.success, { s with vads := Cursor.toTree { c with entry := vad }, written := log })

def mmReleaseVirtualMemory (e : Surroundings) (s : AddressSpace) (va : Nat) :
    Option (Status × AddressSpace) :=
  match lookUpApproximate Vad.startVa s.vads va with
  | none => some (.memoryNotReserved, s)
  | some c =>
    if c.entry.node.startVa ≠ va then some (.vaNotAtBase, s)
    else
      (miReleaseVad e.tables s.heap s.written c.entry.node).map fun r =>
        (.success, ⟨r.1, c.remove, r.2⟩)

def miUnmapVirtualMemoryPartial (e : Surroundings) (s : AddressSpace) (startVa n : Nat) :
    Option (Status × AddressSpace) :=
  match mmOverrideAddressRange e s startVa n with
  | none => none
  | some (status, s, none) => some (status, s)
  | some (_, s, some node) =>
    let r := mmFreeAddressSpace s.heap node
    some (r.1, { s with heap := r.2 })

/-! ## The services -/

/-- The arguments of the services, with the status of resolving the process handle (`none` for a null
    handle) and, for a view, the object its handle stands for. -/
inductive Service
  | allocate (process : Option Status) (base regionSize flags protection : Nat)
  | mapView (process : Status) (object : Except Status Nat) (base viewSize flags sectionOffset
      protection : Nat)
  | free (process : Option Status) (base regionSize flags : Nat)

/-- `(RegionSize + VaOffset + PAGE_SIZE - 1) / PAGE_SIZE`. -/
def regionPages (base regionSize : Nat) : Nat :=
  addW (addW regionSize (base % pageSize)) (pageSize - 1) / pageSize

/-- The flag checks of `OSAllocateVirtualMemory`. -/
def allocateFlagsOk (flags protection : Nat) : Bool :=
  onlyFlags protection pageProtections && flags != 0 &&
    onlyFlags flags (memCommit ||| memReserve ||| memTopDown ||| memShared ||| memFixed ||| memOverride) &&
    hasFlag flags (memCommit ||| memReserve) &&
    !(hasFlag flags memOverride && !hasFlag flags memFixed)

/-- The base address `OSAllocateVirtualMemory` reads: only a fixed allocation or a bare commit does. -/
def allocateBase (base flags : Nat) : Nat :=
  if hasFlag flags memFixed || hasFlag flags memCommit && !hasFlag flags memReserve then base else 0

/-- A status that becomes a fault when the results cannot be copied out. -/
def copiedOut (e : Surroundings) (status : Status) : Status :=
  if status = .success ∧ e.copyOut = false then .fault else status

def osAllocateVirtualMemory (e : Surroundings) (s : AddressSpace) (process : Option Status)
    (base regionSize flags protection : Nat) : Option (Status × AddressSpace) :=
  if !allocateFlagsOk flags protection then some (.invalidParameter, s)
  else
    match process with
    | none => some (.invalidParameter, s)
    | some st =>
      let base := allocateBase base flags
      let n := regionPages base regionSize
      if !e.copyIn then some (.fault, s)
      else if n = 0 then some (.invalidParameter, s)
      else if st ≠ .success then some (st, s)
      else if hasFlag flags memReserve then
        (mmReserveVirtualMemory e s n (pageBase base) flags protection).map fun r =>
          (copiedOut e r.1, r.2)
      else if hasFlag flags memFixed then
        some (copiedOut e (mmCommitVirtualMemory e s (pageBase base) n protection), s)
      else some (.invalidParameter, s)

/-- `(AllocationType & ~MEM_COW) | MEM_RESERVE`. -/
def viewFlags (flags : Nat) : Nat := (flags ||| memReserve) - (flags &&& memCow)

/-- `MmpMapViewOfObject`; a copy-on-write view maps a new overlay, if there is memory for it. -/
def mmpMapViewOfObject (e : Surroundings) (s : AddressSpace) (object base viewSize flags sectionOffset
    protection : Nat) : Option (Status × AddressSpace) :=
  match (if hasFlag flags memCow then e.overlay else some object) with
  | none => some (.insufficientMemory, s)
  | some object =>
    let n := viewSizePages viewSize sectionOffset
    match mmReserveVirtualMemoryVad e s n (viewFlags flags) protection (pageBase base) with
    | none => none
    | some (status, s, none) => some (status, s)
    | some (status, s, some c) =>
      let vad : Vad :=
        { c.entry with
          committed := true
          mappedObject := some object
          sectionOffset := pageBase sectionOffset }
      some (status, { s with vads := Cursor.toTree { c with entry := vad } })

/-- The flag checks of `OSMapViewOfObject`, which `MmMapViewOfObject` repeats in part. -/
def mapViewFlagsOk (flags protection viewSize : Nat) : Bool :=
  onlyFlags protection pageProtections &&
    onlyFlags flags (memCommit ||| memShared ||| memTopDown ||| memCow ||| memFixed ||| memOverride) &&
    !(hasFlag flags memOverride && !hasFlag flags memFixed) && viewSize != 0

def osMapViewOfObject (e : Surroundings) (s : AddressSpace) (process : Status)
    (object : Except Status Nat) (base viewSize flags sectionOffset protection : Nat) :
    Option (Status × AddressSpace) :=
  if !mapViewFlagsOk flags protection viewSize then some (.invalidParameter, s)
  else if !e.copyIn then some (.fault, s)
  else if process ≠ .success then some (process, s)
  else
    match object with
    | .error st => some (st, s)
    | .ok object =>
      (mmpMapViewOfObject e s object base viewSize flags sectionOffset protection).map fun r =>
        (copiedOut e r.1, r.2)

/-- The flag checks of `OSFreeVirtualMemory`. -/
def freeFlagsOk (flags : Nat) : Bool :=
  onlyFlags flags (memDecommit ||| memRelease ||| memPartial) &&
    hasFlag flags (memDecommit ||| memRelease) &&
    !(hasFlag flags memDecommit && hasFlag flags memRelease) &&
    !(hasFlag flags memPartial && !hasFlag flags memRelease)

def osFreeVirtualMemory (e : Surroundings) (s : AddressSpace) (process : Option Status)
    (base regionSize flags : Nat) : Option (Status × AddressSpace) :=
  if !freeFlagsOk flags then some (.invalidParameter, s)
  else
    match process with
    | none => some (.invalidParameter, s)
    | some st =>
      let n := regionPages base regionSize
      if n = 0 then some (.invalidParameter, s)
      else if st ≠ .success then some (st, s)
      else if hasFlag flags memPartial then miUnmapVirtualMemoryPartial e s (pageBase base) n
      else
        let (status, s) := mmDecommitVirtualMemory e s (pageBase base) n
        if status = .success ∧ hasFlag flags memRelease then mmReleaseVirtualMemory e s (pageBase base)
        else some (status, s)

/-- A service call, with what it meets. -/
structure ServiceCall where
  service : Service
  around : Surroundings

namespace AddressSpace

/-- The status and the address space a service leaves. -/
def serve (s : AddressSpace) (c : ServiceCall) : Option (Status × AddressSpace) :=
  match c.service with
  | .allocate process base regionSize flags protection =>
    osAllocateVirtualMemory c.around s process base regionSize flags protection
  | .mapView process object base viewSize flags sectionOffset protection =>
    osMapViewOfObject c.around s process object base viewSize flags sectionOffset protection
  | .free process base regionSize flags =>
    osFreeVirtualMemory c.around s process base regionSize flags

def step (s : AddressSpace) (c : ServiceCall) : Option AddressSpace := (s.serve c).map Prod.snd

/-- A new process: the heap's initial node and no VADs. -/
def initial (pool : Bool) : AddressSpace := ⟨processHeap pool, [], []⟩

end AddressSpace

end Boron.Mm
