import Boron.Ex.HandleTables
import Mathlib.Data.List.AList

/-! # Handles on objects (`ob/handle.c`)

A handle table entry is an object's address with two flags in its low bits. `HandleSystem` has all
objects with their two counts and the handle tables of all processes. Each function runs under the
lock of the table it is about, so one call is one step.

`held` is no data of the code: it counts the references that are not those of table entries, and a
holder only drops a reference that is there. An object whose count has fallen to zero is deleted at
once or by the reaper, here by a step of its own; what its `Delete` method does to other objects and
tables are further steps. `none` is a call that does not come back, or that halts on an assertion.

The `Open` and `Close` methods of the types change none of this and are left out. -/

namespace Boron.Ob

open Ex Function

/-- `OB_HANDLE_ITEM`. -/
structure HandleItem where
  inherit : Bool
  duplicate : Bool
  addressBits : Nat
  deriving DecidableEq

/-- The two views of the union. -/
def HandleItem.pointer (x : HandleItem) : Nat :=
  8 * x.addressBits + 2 * x.duplicate.toNat + x.inherit.toNat

def HandleItem.ofPointer (pointer : Nat) : HandleItem where
  inherit := pointer % 2 = 1
  duplicate := pointer / 2 % 2 = 1
  addressBits := pointer / 8

/-- `OB_OPEN_REASON`, as far as tables are duplicated for it. -/
inductive OpenReason
  | duplicateHandle
  | inheritHandle
  deriving DecidableEq

/-- What is used of `OBJECT_TYPE_INFO`. -/
structure TypeInfo where
  maintainHandleCount : Bool
  hasDuplicate : Bool
  deriving DecidableEq

/-- What is used of `NONPAGED_OBJECT_HEADER`. -/
structure ObjectHeader where
  type : TypeInfo
  pointerCount : Int
  handleCount : Int
  deriving DecidableEq

/-- The objects by their address bits, and the handle tables by process. -/
structure HandleSystem (P : Type) where
  object : Nat → Option ObjectHeader
  tables : AList fun _ : P => HandleTable
  held : Nat → Nat

/-- What a `Duplicate` method returns: `NULL`, or an object that it has made. -/
abbrev DuplicateAnswer := Option (Nat × TypeInfo)

namespace HandleSystem

variable {P : Type} [DecidableEq P]

def setObject (s : HandleSystem P) (o : Nat) (h : ObjectHeader) : HandleSystem P :=
  { s with object := update s.object o (some h) }

def setHeld (s : HandleSystem P) (o n : Nat) : HandleSystem P :=
  { s with held := update s.held o n }

/-! ## References and counts -/

def obReferenceObjectByPointer (s : HandleSystem P) (o : Nat) : Option (HandleSystem P) :=
  (s.object o).map fun h => s.setObject o { h with pointerCount := h.pointerCount + 1 }

def obDereferenceObject (s : HandleSystem P) (o : Nat) : Option (HandleSystem P) :=
  (s.object o).bind fun h =>
    if h.pointerCount < 1 then none
    else some (s.setObject o { h with pointerCount := h.pointerCount - 1 })

/-- Change the handle count of an object whose type maintains it. -/
def addHandleCount (s : HandleSystem P) (o : Nat) (n : Int) : Option (HandleSystem P) :=
  (s.object o).map fun h =>
    if h.type.maintainHandleCount then s.setObject o { h with handleCount := h.handleCount + n }
    else s

/-- `ObpAllocateObject`, for a new object. -/
def obpAllocateObject (s : HandleSystem P) (o : Nat) (type : TypeInfo) : Option (HandleSystem P) :=
  if o = 0 ∨ (s.object o).isSome then none
  else some (s.setObject o { type := type, pointerCount := 1, handleCount := 0 })

/-! ## Handles -/

def obpCloseHandle (s : HandleSystem P) (handleItem : Nat) : Option (HandleSystem P) :=
  let o := (HandleItem.ofPointer handleItem).addressBits
  (s.addHandleCount o (-1)).bind fun s => s.obDereferenceObject o

/-- `ObClose`, for process `p`. -/
def obClose (s : HandleSystem P) (p : P) (handle : Nat) (room : Bool) :
    Option (HandleSystem P × HandleStatus) :=
  (s.tables.lookup p).bind fun t =>
    match t.exDeleteHandle handle (fun _ => true) room with
    | none => none
    | some (t', .success) =>
      ((t.handles handle).bind s.obpCloseHandle).map fun s =>
        ({ s with tables := s.tables.insert p t' }, .success)
    | some (t', status) => some ({ s with tables := s.tables.insert p t' }, status)

/-- `ObpInsertObject`, with the two `OpenFlags` that it looks at. -/
def obpInsertObject (s : HandleSystem P) (p : P) (o : Nat) (noInherit duplicateOnFork : Bool)
    (room : Bool) : Option (HandleSystem P × HandleResult) :=
  (s.tables.lookup p).bind fun t =>
    (s.obReferenceObjectByPointer o).bind fun s =>
      let item : HandleItem := ⟨!noInherit, duplicateOnFork, o⟩
      match t.exCreateHandle item.pointer room with
      | none => none
      | some (t', .ok handle) =>
        (s.addHandleCount o 1).map fun s =>
          ({ s with tables := s.tables.insert p t' }, .ok handle)
      | some (t', .error status) =>
        (s.obDereferenceObject o).map fun s =>
          ({ s with tables := s.tables.insert p t' }, .error status)

/-! ## Tables -/

/-- `ObpDuplicateHandle`, with what the `Duplicate` method answers if it is called. The count that is
raised is that of the old object, also where there is a new one. -/
def obpDuplicateHandle (s : HandleSystem P) (openReason : OpenReason) (answer : DuplicateAnswer)
    (handleItem : Nat) : Option (HandleSystem P × Nat) :=
  let item := HandleItem.ofPointer handleItem
  let o := item.addressBits
  if item.inherit = false ∧ openReason = .inheritHandle then some (s, 0)
  else
    (s.object o).bind fun h =>
      match if item.duplicate ∧ openReason = .duplicateHandle ∧ h.type.hasDuplicate then answer
        else none with
      | none =>
        ((s.obReferenceObjectByPointer o).bind fun s => s.addHandleCount o 1).map fun s =>
          (s, handleItem)
      | some (new, type) =>
        ((s.obpAllocateObject new type).bind fun s => s.addHandleCount o 1).map fun s =>
          (s, { item with addressBits := new }.pointer)

/-- The loop of `ExDuplicateHandleTable` with `ObpDuplicateHandle`, from slot `i` on. -/
def duplicateLoop (openReason : OpenReason) (answer : Nat → DuplicateAnswer) (t : HandleTable) :
    (rounds i : Nat) → HandleTable → HandleSystem P → Option (HandleSystem P × HandleTable)
  | 0, _, new, s => some (s, new)
  | rounds + 1, i, new, s =>
    match t.handleMap[i]? with
    | none => none
    | some object =>
      if object = 0 then duplicateLoop openReason answer t rounds (i + 1) new s
      else if i < new.handleMap.length then
        (s.obpDuplicateHandle openReason (answer i) object).bind fun r =>
          duplicateLoop openReason answer t rounds (i + 1)
            { new with
              handleMap := new.handleMap.set i r.2
              maxIndex := if r.2 = 0 then new.maxIndex else i }
            r.1
      else none

/-- `ObDuplicateHandleTable`: the new table of process `q` is made from that of `p`. -/
def obDuplicateHandleTable (s : HandleSystem P) (q p : P) (openReason : OpenReason)
    (answer : Nat → DuplicateAnswer) (tableRoom mapRoom resizeRoom : Bool) :
    Option (HandleSystem P × HandleStatus) :=
  (s.tables.lookup p).bind fun t =>
    match t.exCreateHandleTableInherit tableRoom mapRoom with
    | none => none
    | some (.error status) => some (s, status)
    | some (.ok new) =>
      match new.expResizeHandleTable t.capacity resizeRoom with
      | none => none
      | some (new, .success) =>
        if new.capacity = t.capacity then
          (duplicateLoop openReason answer t (t.maxIndex + 1) 0 new s).map fun r =>
            ({ r.1 with tables := r.1.tables.insert q r.2 }, .success)
        else none
      | some (_, status) => some (s, status)

/-- Close the handles of the slots, one after the other. -/
def closeSlots : List Nat → HandleSystem P → Option (HandleSystem P)
  | [], s => some s
  | object :: rest, s =>
    if object = 0 then closeSlots rest s
    else (s.obpCloseHandle object).bind (closeSlots rest)

/-- `ObKillHandleTable`. `ObpCloseHandle` refuses no handle, so the table is always freed. -/
def obKillHandleTable (s : HandleSystem P) (p : P) : Option (HandleSystem P) :=
  (s.tables.lookup p).bind fun t =>
    (closeSlots t.handleMap s).map fun s => { s with tables := s.tables.erase p }

def obpCloseAllUninheritableHandlesFilter (handleItem : Nat) : Bool :=
  (HandleItem.ofPointer handleItem).inherit = false

/-- `OSCloseAllUninheritableHandles`, for process `p`: the handles that the filter picks are closed in
the order of their slots. -/
def osCloseAllUninheritableHandles (s : HandleSystem P) (p : P) (room : Nat → Bool) :
    Option (HandleSystem P) :=
  (s.tables.lookup p).bind fun t =>
    (t.exFilterHandleTable obpCloseAllUninheritableHandlesFilter (fun _ => true) room).bind fun t' =>
      (closeSlots (t.handleMap.filter obpCloseAllUninheritableHandlesFilter) s).map fun s =>
        { s with tables := s.tables.insert p t' }

end HandleSystem

/-- A step, with what the pool and the `Duplicate` methods answer in it. -/
inductive HandleAction (P : Type)
  | create (o : Nat) (type : TypeInfo)
  | reference (o : Nat)
  | dereference (o : Nat)
  | delete (o : Nat)
  | createTable (p : P) (tableRoom mapRoom : Bool)
  | insert (p : P) (o : Nat) (noInherit duplicateOnFork room : Bool)
  | close (p : P) (handle : Nat) (room : Bool)
  | closeUninheritable (p : P) (room : Nat → Bool)
  | duplicateTable (q p : P) (openReason : OpenReason) (answer : Nat → DuplicateAnswer)
      (tableRoom mapRoom resizeRoom : Bool)
  | killTable (p : P)

namespace HandleSystem

variable {P : Type} [DecidableEq P]

/-- No objects and no tables. -/
def start : HandleSystem P := ⟨fun _ => none, ∅, fun _ => 0⟩

/-- The steps, taken by callers that hold a reference on what they hand over, for processes that have
a table, or that do not have one yet. -/
def step (s : HandleSystem P) : HandleAction P → Option (HandleSystem P)
  | .create o type => (s.obpAllocateObject o type).map fun s => s.setHeld o 1
  | .reference o =>
    (s.obReferenceObjectByPointer o).map fun s => s.setHeld o (s.held o + 1)
  | .dereference o =>
    if s.held o = 0 then none
    else (s.obDereferenceObject o).map fun s => s.setHeld o (s.held o - 1)
  | .delete o =>
    if (s.object o).any (·.pointerCount = 0) then
      some { s with object := update s.object o none }
    else none
  | .createTable p tableRoom mapRoom =>
    if s.tables.lookup p = none then
      (exCreateHandleTable 16 16 2048 tableRoom mapRoom).map fun
        | .ok t => { s with tables := s.tables.insert p t }
        | .error _ => s
    else none
  | .insert p o noInherit duplicateOnFork room =>
    if s.held o = 0 then none
    else (s.obpInsertObject p o noInherit duplicateOnFork room).map (·.1)
  | .close p handle room => (s.obClose p handle room).map (·.1)
  | .closeUninheritable p room => s.osCloseAllUninheritableHandles p room
  | .duplicateTable q p openReason answer tableRoom mapRoom resizeRoom =>
    if s.tables.lookup q = none then
      (s.obDuplicateHandleTable q p openReason answer tableRoom mapRoom resizeRoom).map (·.1)
    else none
  | .killTable p => s.obKillHandleTable p

end HandleSystem

end Boron.Ob
