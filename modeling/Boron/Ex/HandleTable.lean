import Boron.Lib.Run
import Boron.Lib.Word
import Mathlib.Data.List.Basic

/-! # Handle tables (`ex/handtab.c`)

A handle table is an array of pointers, `NULL` marking a free slot; the handle of slot `i` is
`(i + 1) * 4`. A full table grows by `GrowBy` slots, cut to `Limit`; when the topmost handle is
deleted, the table looks for the next one down and gives slots back in steps of `GrowBy`. Every
function runs under the table's mutex, so one call is one step.

The pool may refuse any request (`room`). The functions return `none` where the code does not come
back: it touches memory outside the array, or loops forever. -/

namespace Boron.Ex

/-- The status codes of `handtab.c`. -/
inductive HandleStatus
  | success
  | insufficientMemory
  | tooManyHandles
  | invalidParameter
  | invalidHandle
  | deleteCanceled
  | unsupportedFunction
  deriving DecidableEq, Repr

/-- `EHANDLE_TABLE`; a pointer is a number, `NULL` is `0`. `HandleMap` is the list of the slots it
has room for, and is empty as long as it is `NULL`. -/
structure HandleTable where
  capacity : Nat
  growBy : Nat
  initialSize : Nat
  maxIndex : Nat
  limit : Nat
  handleMap : List Nat
  deriving DecidableEq, Repr

/-- `sizeof(EHANDLE_ITEM)`. -/
def itemSize : Nat := 8

/-- How many slots a block of `sizeof(EHANDLE_ITEM) * n` bytes holds; the product wraps around. -/
def blockItems (n : Nat) : Nat := mulW itemSize n / itemSize

def indexToHandle (i : Nat) : Nat := mulW (addW i 1) 4

/-- `HANDLE_TO_INDEX`, used on handles that passed `ExpCheckHandleCorrectness`: these are at least
`4`, so the subtraction does not wrap around. -/
def handleToIndex (h : Nat) : Nat := h / 4 - 1

def expCheckHandleCorrectness (h : Nat) : Bool := h != 0 && h % 4 == 0

/-- `ExCreateHandleTable`. `tableRoom` and `mapRoom` say whether the pool has room for the table
and for its array. -/
def exCreateHandleTable (initialSize growBySize limit : Nat) (tableRoom mapRoom : Bool) :
    Option (Except HandleStatus HandleTable) :=
  if !tableRoom then some (.error .insufficientMemory)
  else
    let growBySize' := if limit < initialSize then 0 else growBySize
    let limit' := if limit < initialSize then initialSize else limit
    if initialSize = 0 then some (.ok ⟨0, growBySize', 0, 0, limit', []⟩)
    else if !mapRoom then some (.error .insufficientMemory)
    else if blockItems initialSize < initialSize then none
    else
      some (.ok ⟨initialSize, growBySize', initialSize, 0, limit', List.replicate initialSize 0⟩)

namespace HandleTable

def expResizeHandleTable (t : HandleTable) (newSize : Nat) (room : Bool) :
    Option (HandleTable × HandleStatus) :=
  if newSize = t.capacity then some (t, .success)
  else if t.limit < newSize ∧ 0 < t.limit ∧ t.limit ≤ t.capacity then some (t, .tooManyHandles)
  else
    let newSize := if t.limit < newSize ∧ 0 < t.limit then t.limit else newSize
    if !room then some (t, .insufficientMemory)
    else if blockItems newSize < newSize then none
    else if t.capacity < newSize then
      let newMap := t.handleMap.take t.capacity ++ List.replicate (newSize - t.capacity) 0
      some ({ t with handleMap := newMap, capacity := newSize }, .success)
    else
      some ({ t with handleMap := t.handleMap.take newSize, capacity := newSize }, .success)

/-- The first free slot. -/
def freeIndex (t : HandleTable) : Option Nat := (t.handleMap.take t.capacity).findIdx? (· == 0)

/-- Put a pointer into a slot, and raise `MaxIndex` to it. -/
def place (t : HandleTable) (i pointer : Nat) : HandleTable :=
  { t with
    handleMap := t.handleMap.set i pointer
    maxIndex := if t.maxIndex < i then i else t.maxIndex }

/-- `ExpCreateHandle`, with the slot taken. -/
def expCreateHandle (t : HandleTable) (pointer : Nat) (room : Bool) :
    Option (HandleTable × Except HandleStatus Nat) :=
  match t.freeIndex with
  | some i => some (t.place i pointer, .ok i)
  | none =>
    if t.growBy = 0 then some (t, .error .tooManyHandles)
    else
      match t.expResizeHandleTable (addW t.capacity t.growBy) room with
      | none => none
      | some (t', .success) =>
        if t.capacity < t'.handleMap.length then
          some (t'.place t.capacity pointer, .ok t.capacity)
        else none
      | some (t', status) => some (t', .error status)

/-- The loop that finds a lower `MaxIndex`. -/
def lowerMax (handleMap : List Nat) : Nat → Nat
  | 0 => 0
  | n + 1 => if handleMap.getD (n + 1) 0 = 0 then lowerMax handleMap n else n + 1

/-- The loop that bites `GrowBy` slots off while it can. -/
def shrunkCapacity (t : HandleTable) : (fuel newCapacity : Nat) → Option Nat
  | 0, _ => none
  | fuel + 1, newCapacity =>
    if addW (addW t.maxIndex 1) t.growBy ≤ newCapacity ∧
        addW t.initialSize t.growBy ≤ newCapacity ∧ t.growBy < newCapacity then
      t.shrunkCapacity fuel (newCapacity - t.growBy)
    else some newCapacity

/-- The part of `ExpDeleteHandle` that follows the deletion of the topmost handle. -/
def shrink (t : HandleTable) (room : Bool) : Option HandleTable :=
  let t := { t with maxIndex := lowerMax t.handleMap t.maxIndex }
  match t.shrunkCapacity (t.capacity + 1) t.capacity with
  | none => none
  | some newCapacity =>
    if newCapacity = t.capacity then some t
    else (t.expResizeHandleTable newCapacity room).map (·.1)

def expDeleteHandle (t : HandleTable) (index : Nat) (room : Bool) : Option HandleTable :=
  if index < t.handleMap.length then
    let t := { t with handleMap := t.handleMap.set index 0 }
    if t.maxIndex = index then t.shrink room else some t
  else none

def exCreateHandle (t : HandleTable) (pointer : Nat) (room : Bool) :
    Option (HandleTable × Except HandleStatus Nat) :=
  if pointer = 0 then some (t, .error .invalidParameter)
  else (t.expCreateHandle pointer room).map fun r => (r.1, r.2.map indexToHandle)

def exGetPointerFromHandle (t : HandleTable) (handle : Nat) : Option (Except HandleStatus Nat) :=
  if !expCheckHandleCorrectness handle then some (.error .invalidHandle)
  else if t.capacity ≤ handleToIndex handle then some (.error .invalidHandle)
  else
    match t.handleMap[handleToIndex handle]? with
    | none => none
    | some object => if object = 0 then some (.error .invalidHandle) else some (.ok object)

/-- `ExDeleteHandle`; `kill` is `KillHandleRoutine`. -/
def exDeleteHandle (t : HandleTable) (handle : Nat) (kill : Nat → Bool) (room : Bool) :
    Option (HandleTable × HandleStatus) :=
  if !expCheckHandleCorrectness handle then some (t, .invalidHandle)
  else if t.capacity ≤ handleToIndex handle then some (t, .invalidHandle)
  else
    match t.handleMap[handleToIndex handle]? with
    | none => none
    | some object =>
      if object = 0 then some (t, .invalidHandle)
      else if !kill object then some (t, .deleteCanceled)
      else (t.expDeleteHandle (handleToIndex handle) room).map (·, .success)

/-- `ExDuplicateHandle`; `duplicate` is `DuplicateMethod`. The slot of the new handle is reserved
with the pointer `0x1` before the method is called. -/
def exDuplicateHandle (t : HandleTable) (handle : Nat) (duplicate : Nat → Nat)
    (growRoom shrinkRoom : Bool) : Option (HandleTable × Except HandleStatus Nat) :=
  if !expCheckHandleCorrectness handle then some (t, .error .invalidHandle)
  else if t.capacity ≤ handleToIndex handle then some (t, .error .invalidHandle)
  else
    match t.expCreateHandle 1 growRoom with
    | none => none
    | some (t, .error status) => some (t, .error status)
    | some (t, .ok i) =>
      match t.handleMap[handleToIndex handle]? with
      | none => none
      | some object =>
        if duplicate object = 0 then
          (t.expDeleteHandle i shrinkRoom).map (·, .error .unsupportedFunction)
        else
          some ({ t with handleMap := t.handleMap.set i (duplicate object) },
            .ok (indexToHandle i))

/-- The loop of `ExFilterHandleTable`. `MaxIndex` only falls, so `MaxIndex + 1` rounds are enough. -/
def filterLoop (filter kill : Nat → Bool) (room : Nat → Bool) :
    (fuel : Nat) → HandleTable → Nat → Option HandleTable
  | 0, t, _ => some t
  | fuel + 1, t, i =>
    if i ≤ t.maxIndex then
      match t.handleMap[i]? with
      | none => none
      | some object =>
        if object = 0 then filterLoop filter kill room fuel t (i + 1)
        else if filter object then
          match t.exDeleteHandle (indexToHandle i) kill (room i) with
          | none => none
          | some (t, _) => filterLoop filter kill room fuel t (i + 1)
        else filterLoop filter kill room fuel t (i + 1)
    else some t

def exFilterHandleTable (t : HandleTable) (filter kill : Nat → Bool) (room : Nat → Bool) :
    Option HandleTable :=
  filterLoop filter kill room (t.maxIndex + 1) t 0

end HandleTable

/-- A call on a table, with what its callbacks answer and whether the pool has room. -/
inductive HandleCall
  | create (pointer : Nat) (room : Bool)
  | get (handle : Nat)
  | delete (handle : Nat) (kill : Nat → Bool) (room : Bool)
  | duplicate (handle : Nat) (duplicate : Nat → Nat) (growRoom shrinkRoom : Bool)
  | filter (filter kill : Nat → Bool) (room : Nat → Bool)

/-- What a call returns: a status, and with `success` a handle or a pointer where it has one. -/
abbrev HandleResult := Except HandleStatus Nat

/-- The table after a call, and what the call returns. -/
def HandleTable.call (t : HandleTable) : HandleCall → Option (HandleTable × HandleResult)
  | .create pointer room => t.exCreateHandle pointer room
  | .get handle => (t.exGetPointerFromHandle handle).map (t, ·)
  | .delete handle kill room =>
    (t.exDeleteHandle handle kill room).map fun r =>
      (r.1, if r.2 = .success then .ok 0 else .error r.2)
  | .duplicate handle duplicate growRoom shrinkRoom =>
    t.exDuplicateHandle handle duplicate growRoom shrinkRoom
  | .filter filter kill room => (t.exFilterHandleTable filter kill room).map (·, .ok 0)

def HandleTable.step (t : HandleTable) (c : HandleCall) : Option HandleTable :=
  (t.call c).map (·.1)

end Boron.Ex
