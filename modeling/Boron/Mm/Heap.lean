import Boron.Lib.Run
import Boron.Lib.SearchTree
import Boron.Lib.Tiling
import Boron.Mm.Pfn

/-! # The virtual address heap (`mm/heap.c`)

A heap is a tree of free `MMADDRESS_NODE`s keyed by `StartVa`. Allocation takes a node out of the
tree, cutting what is left over into new nodes (each needs a pool allocation, which may fail); release
puts the node back and merges it with its neighbours. The heap's mutex is held for the whole of every
call, so a call is one step. The tree is read in order (`Boron.Lib.SearchTree`): nodes that are
resized or re-keyed while they sit in the tree keep their place. `ASSERT`s are those of a release
build, that is, none. -/

namespace Boron.Mm

/-- The `BSTATUS` values the heap and its callers return. -/
inductive Status
  | success
  | conflictingAddresses
  | insufficientMemory
  | insufficientVaSpace
  | invalidParameter
  | memoryNotReserved
  | vaNotAtBase
  | fault
  | invalidHandle
  | typeMismatch
  | unsupportedFunction
  deriving DecidableEq, Repr

/-- `MMADDRESS_NODE`: a start address and a size in pages. -/
structure AddressNode where
  startVa : Nat
  size : Nat
  deriving DecidableEq, Repr

namespace AddressNode

/-- `Node_EndVa`, computed in 64 bits. -/
def endVa (n : AddressNode) : Nat := addW n.startVa (mulW n.size pageSize)

/-- The end of the node as a number, without wrap-around. -/
def limit (n : AddressNode) : Nat := n.startVa + n.size * pageSize

end AddressNode

/-- The nodes of `Heap->Tree`, in order. -/
abbrev HeapTree := List AddressNode

def mmFirstUserPage : Nat := 0x1000

def mmLastUserPage : Nat := 0x7FFFFFFFF000

/-- What an allocation returns: its status, the tree after it and `*OutNode`. -/
structure HeapResult where
  status : Status
  tree : HeapTree
  outNode : Option AddressNode
  deriving DecidableEq, Repr

/-! ## The code -/

/-- `InsertItemRbTree` on a heap tree one of whose nodes is in hand, its result ignored. -/
def insertIgnoring (c : Cursor AddressNode) (n : AddressNode) : Cursor AddressNode :=
  (c.insertItem AddressNode.startVa n).getD c

/-- `MmpCreateRegionHeap`; `none` is `false`. The result of the insertion is not looked at: when the
    key is taken the new node is lost. -/
def mmpCreateRegionHeap (pool : Bool) (c : Cursor AddressNode) (startVa size : Nat) :
    Option (Cursor AddressNode) :=
  if pool then some (insertIgnoring c ⟨startVa, size⟩) else none

/-- `MmInitializeHeap`: one region, unless the pool is out of memory, which goes unnoticed. -/
def mmInitializeHeap (pool : Bool) (initialVa initialSize : Nat) : HeapTree :=
  if pool then [⟨initialVa, initialSize⟩] else []

/-- The page count `MmAllocateAddressRange` works with, rounded up from `Va`'s page offset. -/
def rangePages (va sizePages : Nat) : Nat :=
  addW (addW (mulW sizePages pageSize) (va % pageSize)) (pageSize - 1) / pageSize

/-- `Va & ~(PAGE_SIZE - 1)`. -/
def pageBase (va : Nat) : Nat := va - va % pageSize

/-- `MmAllocateAddressRange` past the lookup: `c` holds the node found, `va` is page aligned and `n`
    is the rounded page count. `pool1` and `pool2` are the outcomes of the pool allocations. -/
def allocateRangeAt (c : Cursor AddressNode) (va n : Nat) (pool1 pool2 : Bool) : HeapResult :=
  let node := c.entry
  let conflict : HeapResult := ⟨.conflictingAddresses, c.toTree, none⟩
  let noMemory : HeapResult := ⟨.insufficientMemory, c.toTree, none⟩
  if node.startVa = va ∧ node.size = n then ⟨.success, c.remove, some node⟩
  else if node.size < n then conflict
  else if node.endVa < addW va (mulW n pageSize) then conflict
  else if node.startVa = va then
    -- cut from the right
    match mmpCreateRegionHeap pool1 c (addW node.startVa (mulW n pageSize)) (node.size - n) with
    | none => noMemory
    | some c => ⟨.success, c.remove, some { node with size := n }⟩
  else if node.endVa = addW va (mulW n pageSize) then
    -- cut from the left: the node is re-keyed where it stands
    let cut : AddressNode := ⟨subW node.endVa (mulW n pageSize), n⟩
    match mmpCreateRegionHeap pool1 { c with entry := cut } node.startVa (node.size - n) with
    | none => noMemory
    | some c => ⟨.success, c.remove, some cut⟩
  else if pool1 && pool2 then
    -- cut from both sides
    let node2Va := addW va (mulW n pageSize)
    let node1 : AddressNode := ⟨node.startVa, subW va node.startVa / pageSize⟩
    let node2 : AddressNode := ⟨node2Va, subW node.endVa node2Va / pageSize⟩
    let c := insertIgnoring { c with entry := ⟨va, n⟩ } node1
    let c := insertIgnoring c node2
    ⟨.success, c.remove, some ⟨va, n⟩⟩
  else noMemory

def mmAllocateAddressRange (tree : HeapTree) (va sizePages : Nat) (pool1 pool2 : Bool) :
    HeapResult :=
  match lookUpApproximate AddressNode.startVa tree (pageBase va) with
  | none => ⟨.conflictingAddresses, tree, none⟩
  | some c => allocateRangeAt c (pageBase va) (rangePages va sizePages) pool1 pool2

/-- The loop body of `MmAllocateAddressSpace`; `none` is `continue`. -/
def allocateSpaceAt (sizePages : Nat) (topDown pool : Bool) (c : Cursor AddressNode) :
    Option HeapResult :=
  let node := c.entry
  if node.size = sizePages then some ⟨.success, c.remove, some node⟩
  else if node.size < sizePages then none
  else
    let newSize := node.size - sizePages
    let allocatedVa :=
      if topDown then addW node.startVa (mulW newSize pageSize) else node.startVa
    let newNodeVa :=
      if topDown then node.startVa else addW node.startVa (mulW sizePages pageSize)
    match mmpCreateRegionHeap pool { c with entry := ⟨allocatedVa, node.size⟩ } newNodeVa newSize with
    | none => some ⟨.insufficientMemory, c.toTree, none⟩
    | some c => some ⟨.success, c.remove, some ⟨allocatedVa, sizePages⟩⟩

/-- `MmAllocateAddressSpace`: from the last node down or from the first node up. -/
def mmAllocateAddressSpace (tree : HeapTree) (sizePages : Nat) (topDown pool : Bool) : HeapResult :=
  let body := allocateSpaceAt sizePages topDown pool
  let found := if topDown then forDown body tree.reverse [] else forUp body [] tree
  found.getD ⟨.insufficientVaSpace, tree, none⟩

def mmpTryMergeNext (c : Cursor AddressNode) : Cursor AddressNode :=
  match c.right with
  | [] => c
  | next :: right =>
    if next.startVa = c.entry.endVa then
      ⟨c.left, { c.entry with size := addW c.entry.size next.size }, right⟩
    else c

def mmFreeAddressSpace (tree : HeapTree) (node : AddressNode) : Status × HeapTree :=
  match insertItem AddressNode.startVa tree node with
  | none => (.invalidParameter, tree)
  | some c =>
    let c := mmpTryMergeNext c
    match c.prev with
    | none => (.success, c.toTree)
    | some p => (.success, (mmpTryMergeNext p).toTree)

/-- The heap `PspInitializeProcessObject` gives a process, from `INITIAL_BEG_VA` to
    `INITIAL_END_VA`. -/
def processHeap (pool : Bool) : HeapTree :=
  mmInitializeHeap pool mmFirstUserPage ((mmLastUserPage - mmFirstUserPage) / pageSize)

/-- The page count `MmpMapViewOfObject` asks the heap for. -/
def viewSizePages (viewSize sectionOffset : Nat) : Nat :=
  addW (addW viewSize (sectionOffset % pageSize)) (pageSize - 1) / pageSize

end Boron.Mm
