import Boron.Mm.UserRange

/-! # Asking for a region (`mm/query.c`)

`OSQueryVirtualMemoryInformation` looks an address up among the VADs of a process and, if there is none,
in its heap. The trees are what they are while their mutex is held; other threads may have changed one
when the other is looked at. What the calling thread holds is counted: it should be the same afterwards,
but the exit for an address in neither tree keeps `Heap.Mutex` and reports a success. -/

namespace Boron.Mm

open Function Option

/-! ## Data -/

/-- `VIRTUAL_MEMORY_INFORMATION`. -/
structure Information where
  start : Nat
  size : Nat
  free : Bool
  isPrivate : Bool
  protection : Nat
  deriving DecidableEq, Repr

/-- What a thread holds: how often it owns the mutexes of each process, the process it is attached to
and the references that it has taken. -/
structure Holder (P : Type) where
  vadLists : P → Nat
  heaps : P → Nat
  attached : Option P
  references : P → Nat

/-- A call with what it meets: the current process, what becomes of the handle (`none` is
`CURRENT_PROCESS_HANDLE`), the trees while they are locked, how the wait for the heap ends and how the
copy to user memory does. -/
structure QueryCall (P : Type) where
  current : P
  handle : Option (Status × P)
  virtualAddress : Nat
  vads : P → List Vad
  heapWait : Status
  heap : P → HeapTree
  copyOut : Status

structure QueryResult (P : Type) where
  status : Status
  holder : Holder P
  outInformation : Option Information

/-! ## The code -/

def mmpGetHeapNodeFromAddress (heap : HeapTree) (va : Nat) : Option AddressNode :=
  ((lookUpApproximate AddressNode.startVa heap va).map Cursor.entry).filter fun n =>
    decide (n.startVa ≤ va ∧ va < n.endVa)

namespace Holder

variable {P : Type} [DecidableEq P] (h : Holder P) (p : P)

def lockVadList : Holder P :=
  { h with vadLists := update h.vadLists p (h.vadLists p + 1) }

def unlockVadList : Holder P :=
  { h with vadLists := update h.vadLists p (h.vadLists p - 1) }

def lockHeap : Holder P := { h with heaps := update h.heaps p (h.heaps p + 1) }

def unlockHeap : Holder P := { h with heaps := update h.heaps p (h.heaps p - 1) }

/-- `ExReferenceObjectByHandle` and `PsSetAttachedProcess`. -/
def attach : Holder P :=
  { h with attached := some p, references := update h.references p (h.references p + 1) }

/-- `PsSetAttachedProcess` of the process from before and `ObDereferenceObject`. -/
def detach (restore : Option P) : Holder P :=
  { h with attached := restore, references := update h.references p (h.references p - 1) }

@[simp]
theorem unlockVadList_lockVadList : (h.lockVadList p).unlockVadList p = h := by
  simp [lockVadList, unlockVadList]

@[simp]
theorem unlockHeap_lockHeap : (h.lockHeap p).unlockHeap p = h := by
  simp [lockHeap, unlockHeap]

theorem detach_attach : (h.attach p).detach p h.attached = h := by
  simp [attach, detach]

/-- The heap's mutex stays held. -/
theorem detach_lockHeap_attach : ((h.attach p).lockHeap p).detach p h.attached = h.lockHeap p := by
  simp [attach, detach, lockHeap]

theorem lockHeap_ne : h.lockHeap p ≠ h := by
  intro heq
  have hh := congrFun (congrArg heaps heq) p
  simp [lockHeap] at hh

end Holder

namespace QueryCall

variable {P : Type} [DecidableEq P] (q : QueryCall P)

/-- The lookups in a process: the status and `Information` at the label `Fail`. -/
def lookUp (process : P) (h : Holder P) : Status × Information × Holder P :=
  let h := h.lockVadList process
  match mmLookUpVadByAddress (q.vads process) q.virtualAddress with
  | some c =>
    let vad := c.entry
    (.success, ⟨vad.node.startVa, mulW vad.node.size pageSize, false, vad.isPrivate, vad.protection⟩,
      h.unlockVadList process)
  | none =>
    let h := h.unlockVadList process
    if q.heapWait ≠ .success then (q.heapWait, ⟨0, 0, true, false, 0⟩, h)
    else
      let h := h.lockHeap process
      match mmpGetHeapNodeFromAddress (q.heap process) q.virtualAddress with
      -- in neither tree: the mutex stays locked, and the status is that of the wait
      | none => (q.heapWait, ⟨0, 0, true, false, 0⟩, h)
      | some node =>
        (q.heapWait, ⟨node.startVa, mulW node.size pageSize, true, false, 0⟩, h.unlockHeap process)

/-- The end of the call: a success is copied out. -/
def leave (r : Status × Information × Holder P) : QueryResult P :=
  if r.1 = .success then
    ⟨q.copyOut, r.2.2, if q.copyOut = .success then some r.2.1 else none⟩
  else ⟨r.1, r.2.2, none⟩

def osQueryVirtualMemoryInformation (h : Holder P) : QueryResult P :=
  if mmUserSpaceEnd < q.virtualAddress then ⟨.invalidParameter, h, none⟩
  else
    match q.handle with
    | none => q.leave (q.lookUp q.current h)
    | some (status, process) =>
      if status ≠ .success then ⟨status, h, none⟩
      else
        let processRestore := h.attached
        let (status, information, h) := q.lookUp process (h.attach process)
        q.leave (status, information, h.detach process processRestore)

/-! ## What is asked of it -/

/-- The process that is looked at. -/
def target : P :=
  match q.handle with
  | none => q.current
  | some (_, process) => process

/-- The region is a VAD or a free node of the process, whole, and the address is in it. -/
structure Describes (i : Information) : Prop where
  contains : i.start ≤ q.virtualAddress ∧ q.virtualAddress < i.start + i.size
  region : if i.free then ∃ n ∈ q.heap q.target, i.start = n.startVa ∧ i.size = n.size * pageSize
    else ∃ v ∈ q.vads q.target, i.start = v.node.startVa ∧ i.size = v.node.size * pageSize

/-- Everything is released, and a success has described the region. -/
structure Right (h : Holder P) (r : QueryResult P) : Prop where
  holder : r.holder = h
  success : r.status = .success → ∃ i, r.outInformation = some i ∧ q.Describes i

/-- The node that the address is in. -/
def found : Option AddressNode :=
  match mmLookUpVadByAddress (q.vads q.target) q.virtualAddress with
  | some c => some c.entry.node
  | none => mmpGetHeapNodeFromAddress (q.heap q.target) q.virtualAddress

/-- The tree that it is in. -/
def tree : List AddressNode :=
  match mmLookUpVadByAddress (q.vads q.target) q.virtualAddress with
  | some _ => (q.vads q.target).map Vad.node
  | none => q.heap q.target

/-- The node's size in bytes does not wrap, or the wrapped size is that of another node that starts
where it does. -/
def Whole (n : AddressNode) : Prop :=
  ∃ m ∈ q.tree, m.startVa = n.startVa ∧ mulW n.size pageSize = m.size * pageSize

/-- The address is refused, the handle or the wait for the heap fails, or the address is in a node,
which is whole if it comes to the copy. -/
def Fits : Prop :=
  mmUserSpaceEnd < q.virtualAddress ∨
  (∃ status process, q.handle = some (status, process) ∧ status ≠ .success) ∨
  (mmLookUpVadByAddress (q.vads q.target) q.virtualAddress = none ∧ q.heapWait ≠ .success) ∨
  ∃ n, q.found = some n ∧ (q.copyOut = .success → q.Whole n)

variable {q}

/-! ## Lookups -/

variable {va : Nat}

theorem mmLookUpVadByAddress_bounds {vads : List Vad} {c : Cursor Vad}
    (h : mmLookUpVadByAddress vads va = some c) :
    c.entry ∈ vads ∧ c.entry.node.startVa ≤ va ∧ va < c.entry.node.endVa := by
  obtain ⟨hc, hlt⟩ := filter_eq_some_iff.1 h
  obtain ⟨htree, hle⟩ := lookUpApproximate_eq_some hc
  exact ⟨htree ▸ by simp [Cursor.toTree], hle, of_decide_eq_true hlt⟩

variable {n : AddressNode}

theorem mmpGetHeapNodeFromAddress_bounds {heap : HeapTree}
    (h : mmpGetHeapNodeFromAddress heap va = some n) : n ∈ heap ∧ n.startVa ≤ va ∧ va < n.endVa := by
  obtain ⟨hp, hin⟩ := filter_eq_some_iff.1 h
  obtain ⟨c, hc, rfl⟩ := map_eq_some_iff.1 hp
  obtain ⟨htree, -⟩ := lookUpApproximate_eq_some hc
  exact ⟨htree ▸ by simp [Cursor.toTree], of_decide_eq_true hin⟩

/-- An end that wraps is not past the start, so an address between them is within the bytes that the
size comes to in 64 bits. -/
theorem lt_startVa_add (hh : va < n.endVa) : va < n.startVa + mulW n.size pageSize := by
  unfold AddressNode.endVa addW at hh
  exact hh.trans_le (Nat.mod_le _ _)

/-- What the lookups come to. -/
theorem lookUp_cases (q : QueryCall P) (h : Holder P) : (∃ n i, q.found = some n ∧
      (mmLookUpVadByAddress (q.vads q.target) q.virtualAddress = none → q.heapWait = .success) ∧
      q.lookUp q.target h = (.success, i, h) ∧ (q.Describes i ↔ q.Whole n)) ∨
    (∃ i, mmLookUpVadByAddress (q.vads q.target) q.virtualAddress = none ∧ q.heapWait ≠ .success ∧
      q.lookUp q.target h = (q.heapWait, i, h)) ∨
    (∃ i, q.found = none ∧ q.heapWait = .success ∧
      q.lookUp q.target h = (.success, i, h.lockHeap q.target)) := by
  unfold found Whole tree lookUp
  dsimp only
  cases hvd : mmLookUpVadByAddress (q.vads q.target) q.virtualAddress with
  | some c =>
    obtain ⟨hme, hlo, hh⟩ := mmLookUpVadByAddress_bounds hvd
    refine .inl ⟨_, _, rfl, nofun, by rw [Holder.unlockVadList_lockVadList], ?_⟩
    constructor
    · intro hds
      obtain ⟨v, hv, hst, hsize⟩ := hds.region
      exact ⟨v.node, List.mem_map_of_mem hv, hst.symm, hsize⟩
    · rintro ⟨m, hm, hst, hsize⟩
      obtain ⟨v, hv, rfl⟩ := List.mem_map.1 hm
      exact ⟨⟨hlo, lt_startVa_add hh⟩, v, hv, hst.symm, hsize⟩
  | none =>
    rw [Holder.unlockVadList_lockVadList]
    by_cases hw : q.heapWait = .success
    · rw [if_neg (not_not.2 hw)]
      cases hnd : mmpGetHeapNodeFromAddress (q.heap q.target) q.virtualAddress with
      | some n =>
        obtain ⟨hme, hlo, hh⟩ := mmpGetHeapNodeFromAddress_bounds hnd
        refine .inl ⟨_, _, rfl, fun _ => hw, by rw [Holder.unlockHeap_lockHeap, hw], ?_⟩
        constructor
        · intro hds
          obtain ⟨m, hm, hst, hsize⟩ := hds.region
          exact ⟨m, hm, hst.symm, hsize⟩
        · rintro ⟨m, hm, hst, hsize⟩
          exact ⟨⟨hlo, lt_startVa_add hh⟩, m, hm, hst.symm, hsize⟩
      | none => exact .inr (.inr ⟨_, rfl, hw, by rw [hw]⟩)
    · rw [if_pos hw]
      exact .inr (.inl ⟨_, rfl, hw, rfl⟩)

omit [DecidableEq P] in
theorem leave_right_iff (q : QueryCall P) (h h' : Holder P) (st : Status) (i : Information) :
    q.Right h (q.leave (st, i, h')) ↔
      h' = h ∧ (st = .success → q.copyOut = .success → q.Describes i) := by
  unfold leave
  by_cases hst : st = .success
  · rw [if_pos hst]
    constructor
    · intro hrg
      refine ⟨hrg.holder, fun _ hc => ?_⟩
      obtain ⟨i', hot, hds⟩ := hrg.success hc
      dsimp only at hot
      rw [if_pos hc] at hot
      exact some.inj hot ▸ hds
    · rintro ⟨hh, hds⟩
      refine ⟨hh, fun hc => ⟨i, ?_, hds hst hc⟩⟩
      exact if_pos hc
  · rw [if_neg hst]
    constructor
    · intro hrg
      exact ⟨hrg.holder, fun h => absurd h hst⟩
    · rintro ⟨hh, -⟩
      exact ⟨hh, fun h => absurd h hst⟩

/-- Whatever the thread holds on the way, if it gives that back when it should. -/
theorem looked_right_iff (q : QueryCall P) (h h' : Holder P) (fin : Holder P → Holder P)
    (hb : fin h' = h) (hp : fin (h'.lockHeap q.target) ≠ h) {st : Status}
    {i : Information} {h'' : Holder P} (hlk : q.lookUp q.target h' = (st, i, h'')) :
    q.Right h (q.leave (st, i, fin h'')) ↔
      (mmLookUpVadByAddress (q.vads q.target) q.virtualAddress = none ∧ q.heapWait ≠ .success) ∨
        ∃ n, q.found = some n ∧ (q.copyOut = .success → q.Whole n) := by
  rw [leave_right_iff]
  rcases lookUp_cases q h' with ⟨n, i', hfn, hwt, heq, hds⟩ | ⟨i', hnn, hwt, heq⟩ | ⟨i', hfn, hwt, heq⟩
  · cases hlk.symm.trans heq
    constructor
    · rintro ⟨-, hrg⟩
      exact .inr ⟨n, hfn, fun hc => hds.1 (hrg rfl hc)⟩
    · rintro (⟨hnn, hfl⟩ | ⟨m, hm, hw⟩)
      · exact absurd (hwt hnn) hfl
      · cases hfn.symm.trans hm
        exact ⟨hb, fun _ hc => hds.2 (hw hc)⟩
  · cases hlk.symm.trans heq
    exact iff_of_true ⟨hb, fun h => absurd h hwt⟩ (.inl ⟨hnn, hwt⟩)
  · cases hlk.symm.trans heq
    refine iff_of_false (fun h => hp h.1) ?_
    rintro (⟨-, hfl⟩ | ⟨n, hn, -⟩)
    · exact hfl hwt
    · rw [hfn] at hn
      cases hn

/-- **The query is right just if the address is refused, something fails before the lookups come to
nothing, or the address is in a node of one of the trees.** -/
theorem query_right_iff (q : QueryCall P) (h : Holder P) :
    q.Right h (q.osQueryVirtualMemoryInformation h) ↔ q.Fits := by
  unfold osQueryVirtualMemoryInformation Fits
  by_cases he : mmUserSpaceEnd < q.virtualAddress
  · rw [if_pos he]
    exact iff_of_true ⟨rfl, nofun⟩ (.inl he)
  · rw [if_neg he, or_iff_right he]
    cases hh : q.handle with
    | none =>
      have htr : q.target = q.current := by
        unfold target
        rw [hh]
      rw [or_iff_right nofun, ← htr]
      rcases hlk : q.lookUp q.target h with ⟨status, i, h''⟩
      exact looked_right_iff q h h id rfl (h.lockHeap_ne _) hlk
    | some handle =>
      obtain ⟨status, process⟩ := handle
      dsimp only
      by_cases hst : status = .success
      · have hnt : ¬ ∃ status' process', some (status, process) = some (status', process') ∧
            status' ≠ .success := by
          rintro ⟨status', process', heq, hfl⟩
          cases heq
          exact hfl hst
        have htr : q.target = process := by
          unfold target
          rw [hh]
        rw [if_neg (not_not.2 hst), or_iff_right hnt]
        rw [← htr]
        rcases hlk : q.lookUp q.target (h.attach q.target) with ⟨status, i, h''⟩
        refine looked_right_iff q h (h.attach q.target) (·.detach q.target h.attached)
          (h.detach_attach _) ?_ hlk
        rw [Holder.detach_lockHeap_attach]
        exact h.lockHeap_ne _
      · rw [if_pos hst]
        exact iff_of_true ⟨rfl, fun h => absurd h hst⟩ (.inl ⟨status, process, rfl, hst⟩)

/-- A process with one page mapped at 2 MB and the rest of the user range free. -/
def onePage : QueryCall Unit where
  current := ()
  handle := none
  virtualAddress := 0x200123
  vads _ := [⟨⟨0x200000, 1⟩, true, true, 3, none, 0⟩]
  heapWait := .success
  heap _ := [⟨0x1000, 0x1ff⟩, ⟨0x201000, 0x7fffffdfe⟩]
  copyOut := .success

/-- A thread that holds nothing. -/
def emptyHanded : Holder Unit := ⟨fun _ => 0, fun _ => 0, none, fun _ => 0⟩

/-- An address below the first page. -/
def belowFirst : QueryCall Unit := { onePage with virtualAddress := 0x123 }

/-- It is found nowhere, and the heap's mutex stays locked. -/
theorem query_keeps_mutex :
    ¬ ∀ (q : QueryCall Unit) (h : Holder Unit), q.Right h (q.osQueryVirtualMemoryInformation h) := by
  intro h
  have hh := congrFun (congrArg Holder.heaps (h belowFirst emptyHanded).holder) ()
  exact absurd hh (by decide)

end QueryCall

end Boron.Mm
