import Boron.Ke.Dispatch

/-! # The wait services (`ex/wait.c`)

`OSWaitForMultipleObjects` reads the handles from user memory one by one and takes a reference on each
object. What it takes and drops is written down in the order in which it happens; other threads change
the array and the handle table between two turns, so what a turn finds is an input.

At the end as many references are dropped as `ReferencedObjectCount` says, and that is the index of
the last object, not the number of objects: one reference stays behind
(`osWaitForMultipleObjects_right_iff`). -/

namespace Boron.Ex.WaitServices

open List Option

open Boron.Ke (WaitStatus maximumWaitBlocks threadWaitBlocks)

/-- The object types that `ExpIsDispatchObject` knows, and the others. -/
inductive ObjectType
  | mutex
  | event
  | semaphore
  | timer
  | thread
  | process
  | other (type : Nat)
  deriving DecidableEq

def expIsDispatchObject (type : ObjectType) : Bool :=
  type = .mutex || type = .event || type = .semaphore || type = .timer || type = .thread ||
    type = .process

/-- The failures of the services; `other` are those of `MmSafeCopy` and `ObReferenceObjectByHandle`. -/
inductive Failure
  | invalidParameter
  | insufficientMemory
  | other (code : Nat)
  deriving DecidableEq

/-- The arguments of `OSWaitForMultipleObjects` by value, and the caller's mode. -/
structure Arguments where
  objectCount : Int
  objectsArrayGiven : Bool
  waitType : Int
  alertable : Bool
  timeoutMS : Int
  userMode : Bool

def waitAllObjects : Int := 0

def waitAnyObject : Int := 1

/-- What a call finds: the types of the objects, whether the pool has room, what copying the `i`-th
handle gives, and what `ObReferenceObjectByHandle` gives for it. -/
structure Surroundings (O : Type) where
  type : O → ObjectType
  objectsRoom : Bool
  waitBlocksRoom : Bool
  copyHandle : Nat → Except Failure Nat
  referenceByHandle : Nat → Nat → Except Failure O

/-- A call of `KeWaitForMultipleObjects`. `waitBlocks` is how many blocks the caller's array has, none
if it leaves those of the thread to be used. -/
structure KeWait (O : Type) where
  objects : List O
  waitType : Int
  alertable : Bool
  timeoutMS : Int
  waitBlocks : Option Nat
  userMode : Bool

/-- What the service allocates in the pool. -/
inductive PoolBlock
  | objects
  | waitBlocks
  deriving DecidableEq

/-- What a call has done when it returns: the references it took and dropped, the pool blocks it
allocated and freed, and the waits it entered. -/
structure Deeds (O : Type) where
  taken : List O
  dropped : List O
  allocated : List PoolBlock
  freed : List PoolBlock
  waits : List (KeWait O)

variable {O : Type} [DecidableEq O]

/-- `OSWaitForSingleObject`; `wait` is what the wait returns. -/
def osWaitForSingleObject (s : Surroundings O) (a : Arguments) (handle : Nat)
    (wait : KeWait O → WaitStatus) : Except Failure WaitStatus × Deeds O :=
  match s.referenceByHandle 0 handle with
  | .error e => (.error e, ⟨[], [], [], [], []⟩)
  | .ok o =>
    if !expIsDispatchObject (s.type o) then
      (.error .invalidParameter, ⟨[o], [o], [], [], []⟩)
    else
      let call : KeWait O :=
        { objects := [o], waitType := waitAnyObject, alertable := a.alertable
          timeoutMS := a.timeoutMS, waitBlocks := none, userMode := a.userMode }
      (.ok (wait call), ⟨[o], [o], [], [], [call]⟩)

/-- How the loop over the handles ends: why it stopped early, the objects in `Objects`, and
`ReferencedObjectCount`. -/
structure Referenced (O : Type) where
  failure : Option Failure
  objects : List O
  referencedObjectCount : Nat

/-- The loop that references the handles, with `left` turns to go from turn `i` on. -/
def referenceHandles (s : Surroundings O) :
    (left i : Nat) → (objects : List O) → (referencedObjectCount : Nat) → Referenced O
  | 0, _, objects, count => ⟨none, objects, count⟩
  | left + 1, i, objects, count =>
    match s.copyHandle i with
    | .error e => ⟨some e, objects, count⟩
    | .ok handle =>
      match s.referenceByHandle i handle with
      | .error e => ⟨some e, objects, count⟩
      | .ok o =>
        if !expIsDispatchObject (s.type o) then ⟨some .invalidParameter, objects ++ [o], count⟩
        else referenceHandles s left (i + 1) (objects ++ [o]) i

/-- The loops that look for an object that is named twice. -/
def namedTwice : List O → Bool
  | [] => false
  | o :: rest => rest.any (fun p => p = o) || namedTwice rest

def Arguments.refused (a : Arguments) : Bool :=
  maximumWaitBlocks < a.objectCount || a.objectCount < 0 || !a.objectsArrayGiven ||
    (a.waitType ≠ waitAllObjects && a.waitType ≠ waitAnyObject)

/-- The part of `OSWaitForMultipleObjects` from the first handle on, when there is memory. -/
def waitForHandles (s : Surroundings O) (a : Arguments) (wait : KeWait O → WaitStatus)
    (allocated : List PoolBlock) (waitBlocks : Option Nat) : Except Failure WaitStatus × Deeds O :=
  let r := referenceHandles s a.objectCount.toNat 0 [] 0
  let dropped := r.objects.take r.referencedObjectCount
  match r.failure with
  | some e => (.error e, ⟨r.objects, dropped, allocated, allocated, []⟩)
  | none =>
    if namedTwice r.objects then
      (.error .invalidParameter, ⟨r.objects, dropped, allocated, allocated, []⟩)
    else
      let call : KeWait O :=
        { objects := r.objects, waitType := a.waitType, alertable := a.alertable
          timeoutMS := a.timeoutMS, waitBlocks := waitBlocks, userMode := a.userMode }
      (.ok (wait call), ⟨r.objects, dropped, allocated, allocated, [call]⟩)

def osWaitForMultipleObjects (s : Surroundings O) (a : Arguments) (wait : KeWait O → WaitStatus) :
    Except Failure WaitStatus × Deeds O :=
  if a.refused then (.error .invalidParameter, ⟨[], [], [], [], []⟩)
  else if !s.objectsRoom then (.error .insufficientMemory, ⟨[], [], [], [], []⟩)
  else if threadWaitBlocks < a.objectCount then
    if !s.waitBlocksRoom then
      (.error .insufficientMemory, ⟨[], [], [.objects], [.objects], []⟩)
    else
      waitForHandles s a wait [.objects, .waitBlocks] (some a.objectCount.toNat)
  else waitForHandles s a wait [.objects] none

/-! ## What is asked of a call -/

/-- The objects are dispatcher objects, no two the same, and there is a wait block for each. -/
structure KeWait.Proper (s : Surroundings O) (call : KeWait O) : Prop where
  dispatchObjects : ∀ o ∈ call.objects, expIsDispatchObject (s.type o) = true
  distinct : call.objects.Nodup
  waitBlocks : call.objects.length ≤ call.waitBlocks.getD threadWaitBlocks

/-- Every reference is dropped as often as it was taken, and only proper waits are entered. -/
structure Deeds.Right (s : Surroundings O) (d : Deeds O) : Prop where
  balanced : d.dropped.Perm d.taken
  proper : ∀ call ∈ d.waits, call.Proper s

/-- The call stops before it takes a reference: it is refused, there is no memory, there is no handle,
or the first one cannot be read or is invalid. -/
def StopsEarly (s : Surroundings O) (a : Arguments) : Prop :=
  a.refused = true ∨ s.objectsRoom = false ∨
    (threadWaitBlocks < a.objectCount ∧ s.waitBlocksRoom = false) ∨ a.objectCount = 0 ∨
      ∀ handle o, s.copyHandle 0 = .ok handle → s.referenceByHandle 0 handle ≠ .ok o

/-! ## The loops -/

theorem namedTwice_eq_false_iff {l : List O} : namedTwice l = false ↔ l.Nodup := by
  induction l with
  | nil => exact iff_of_true rfl nodup_nil
  | cons o rest ih =>
    rw [namedTwice, Bool.or_eq_false_iff, ih, nodup_cons]
    refine and_congr_left fun _ => ?_
    rw [List.any_eq_false]
    constructor
    · intro h ho
      exact h o ho (by simp)
    · intro h p hp heq
      exact h (of_decide_eq_true heq ▸ hp)

/-- What the loop leaves behind when it was started at turn `i` with as many objects. -/
structure Referenced.Left (s : Surroundings O) (left i : Nat) (objects : List O)
    (r : Referenced O) : Prop where
  /-- Unless nothing was taken, the count stays below the number of objects. -/
  count_lt : r.objects ≠ [] → r.referencedObjectCount < r.objects.length
  grows : objects.length ≤ r.objects.length
  complete : r.failure = none →
    r.objects.length = i + left ∧ ∀ o ∈ r.objects, expIsDispatchObject (s.type o) = true

section

variable {s : Surroundings O} {left i count : Nat} {objects : List O}

omit [DecidableEq O] in
/-- The invariant is that the count lags behind by one. -/
theorem referenceHandles_left (hlength : objects.length = i) (hcount : count = i - 1)
    (hds : ∀ o ∈ objects, expIsDispatchObject (s.type o) = true) :
    (referenceHandles s left i objects count).Left s left i objects := by
  have hlt : objects ≠ [] → count < objects.length := by
    intro hne
    have hpos := length_pos_iff.2 hne
    omega
  induction left generalizing i objects count with
  | zero => exact ⟨hlt, Nat.le_refl _, fun _ => ⟨hlength, hds⟩⟩
  | succ left ih =>
    rw [referenceHandles]
    cases s.copyHandle i with
    | error e => exact ⟨hlt, Nat.le_refl _, nofun⟩
    | ok handle =>
      dsimp only
      cases s.referenceByHandle i handle with
      | error e => exact ⟨hlt, Nat.le_refl _, nofun⟩
      | ok o =>
        have hlength' : (objects ++ [o]).length = i + 1 := by simp [hlength]
        dsimp only
        cases hy : expIsDispatchObject (s.type o) with
        | false =>
          refine ⟨fun _ => ?_, ?_, nofun⟩
          · change count < (objects ++ [o]).length
            omega
          · change objects.length ≤ (objects ++ [o]).length
            omega
        | true =>
          have hds' : ∀ p ∈ objects ++ [o], expIsDispatchObject (s.type p) = true := by
            intro p hp
            rcases mem_append.1 hp with hp | hp
            · exact hds p hp
            · rw [mem_singleton.1 hp, hy]
          have hnext := ih hlength' (rfl : i = i + 1 - 1) hds' fun _ => by omega
          refine ⟨hnext.count_lt, ?_, fun h => ?_⟩
          · have hgr := hnext.grows
            change objects.length ≤ (referenceHandles s left (i + 1) _ i).objects.length
            omega
          · obtain ⟨he, ha⟩ := hnext.complete h
            refine ⟨?_, ha⟩
            change (referenceHandles s left (i + 1) _ i).objects.length = i + (left + 1)
            omega

omit [DecidableEq O] in
theorem referenceHandles_start (left : Nat) : (referenceHandles s left 0 [] 0).Left s left 0 [] :=
  referenceHandles_left rfl rfl fun _ h => absurd h not_mem_nil

omit [DecidableEq O] in
theorem referenceHandles_eq_nil_iff : (referenceHandles s left 0 [] 0).objects = [] ↔
    left = 0 ∨ ∀ handle o, s.copyHandle 0 = .ok handle → s.referenceByHandle 0 handle ≠ .ok o := by
  cases left with
  | zero => exact iff_of_true rfl (.inl rfl)
  | succ left =>
    rw [referenceHandles]
    cases hc : s.copyHandle 0 with
    | error e => exact iff_of_true rfl (.inr fun _ _ h => by cases h)
    | ok handle =>
      dsimp only
      cases hrf : s.referenceByHandle 0 handle with
      | error e =>
        refine iff_of_true rfl (.inr fun _ _ h => ?_)
        cases h
        rw [hrf]
        exact fun h => by cases h
      | ok o =>
        refine iff_of_false (fun h => ?_) ?_
        · dsimp only at h
          cases hy : expIsDispatchObject (s.type o) with
          | false =>
            rw [hy] at h
            cases h
          | true =>
            have hds : ∀ p ∈ [o], expIsDispatchObject (s.type p) = true := by
              intro p hp
              rw [mem_singleton.1 hp, hy]
            have hlf : (referenceHandles s left 1 [o] 0).Left s left 1 [o] :=
              referenceHandles_left rfl rfl hds
            rw [hy] at h
            have hgr := hlf.grows
            change (referenceHandles s left 1 [o] 0).objects = [] at h
            rw [h] at hgr
            cases hgr
        · intro h
          rcases h with h | h
          · cases h
          · exact h handle o rfl hrf

end

/-! ## The call -/

section

variable {s : Surroundings O} {a : Arguments}

omit [DecidableEq O] in
theorem noWaits_proper : ∀ call ∈ ([] : List (KeWait O)), call.Proper s :=
  fun _ h => absurd h not_mem_nil

variable {wb : Option Nat}

section

variable (wait : KeWait O → WaitStatus) (alc : List PoolBlock)

/-- A wait is entered with what the two loops let through. -/
theorem waitForHandles_proper (hb : a.objectCount.toNat ≤ wb.getD threadWaitBlocks) :
    ∀ call ∈ (waitForHandles s a wait alc wb).2.waits, call.Proper s := by
  have hlf := referenceHandles_start (s := s) a.objectCount.toNat
  unfold waitForHandles
  generalize referenceHandles s a.objectCount.toNat 0 [] 0 = r at hlf ⊢
  dsimp only
  cases hfl : r.failure with
  | some e => exact noWaits_proper
  | none =>
    obtain ⟨hlength, hds⟩ := hlf.complete hfl
    cases hw : namedTwice r.objects with
    | true => exact noWaits_proper
    | false =>
      intro call hc
      obtain rfl := mem_singleton.1 hc
      refine ⟨hds, namedTwice_eq_false_iff.1 hw, ?_⟩
      change r.objects.length ≤ wb.getD threadWaitBlocks
      omega

/-- Whatever the call ends with, what it drops is what it took just if it took nothing. -/
theorem waitForHandles_balanced_iff (wb : Option Nat) :
    (waitForHandles s a wait alc wb).2.dropped.Perm
        (waitForHandles s a wait alc wb).2.taken ↔ a.objectCount.toNat = 0 ∨
      ∀ handle o, s.copyHandle 0 = .ok handle → s.referenceByHandle 0 handle ≠ .ok o := by
  rw [← referenceHandles_eq_nil_iff]
  have hlf := referenceHandles_start (s := s) a.objectCount.toNat
  unfold waitForHandles
  generalize referenceHandles s a.objectCount.toNat 0 [] 0 = r at hlf ⊢
  have hb : (r.objects.take r.referencedObjectCount).Perm r.objects ↔ r.objects = [] := by
    constructor
    · intro hp
      by_contra hne
      have hlt := hlf.count_lt hne
      have hlength := hp.length_eq
      rw [length_take] at hlength
      omega
    · intro h
      rw [h, take_nil]
  dsimp only
  cases r.failure with
  | some e => exact hb
  | none =>
    cases namedTwice r.objects with
    | true => exact hb
    | false => exact hb

theorem waitForHandles_right_iff (hb : a.objectCount.toNat ≤ wb.getD threadWaitBlocks) :
    (waitForHandles s a wait alc wb).2.Right s ↔ a.objectCount.toNat = 0 ∨
      ∀ handle o, s.copyHandle 0 = .ok handle → s.referenceByHandle 0 handle ≠ .ok o := by
  rw [← waitForHandles_balanced_iff wait alc wb]
  exact ⟨Deeds.Right.balanced, fun h => ⟨h, waitForHandles_proper wait alc hb⟩⟩

end

omit [DecidableEq O] in
theorem right_nothing (alc : List PoolBlock) : (⟨[], [], alc, alc, []⟩ : Deeds O).Right s :=
  ⟨.refl _, noWaits_proper⟩

/-- **A call is right just if it stops before it takes a reference.** -/
theorem osWaitForMultipleObjects_right_iff (s : Surroundings O) (a : Arguments)
    (wait : KeWait O → WaitStatus) :
    (osWaitForMultipleObjects s a wait).2.Right s ↔ StopsEarly s a := by
  unfold osWaitForMultipleObjects StopsEarly
  by_cases hrf : a.refused = true
  · rw [if_pos hrf]
    exact iff_of_true (right_nothing []) (.inl hrf)
  have hng : 0 ≤ a.objectCount := by
    simp only [Arguments.refused, Bool.or_eq_true, decide_eq_true_eq, not_or] at hrf
    omega
  rw [if_neg hrf]
  cases hob : s.objectsRoom with
  | false => exact iff_of_true (right_nothing []) (.inr (.inl rfl))
  | true =>
    simp only [hrf, Bool.not_true, Bool.false_eq_true, if_false, Bool.true_eq_false, false_or]
    by_cases hmn : threadWaitBlocks < a.objectCount
    · rw [if_pos hmn]
      cases hb : s.waitBlocksRoom with
      | false => exact iff_of_true (right_nothing [.objects]) (.inl ⟨hmn, rfl⟩)
      | true =>
        simp only [Bool.not_true, Bool.false_eq_true, if_false, Bool.true_eq_false, and_false, false_or]
        rw [waitForHandles_right_iff wait _ (Nat.le_of_eq (getD_some ..).symm)]
        exact or_congr_left (by omega)
    · rw [if_neg hmn, waitForHandles_right_iff wait _ (by
        rw [getD_none]
        omega)]
      simp only [hmn, false_and, false_or]
      exact or_congr_left (by omega)

end

/-- One event, named by one handle: its reference stays behind. -/
theorem osWaitForMultipleObjects_leaks :
    ¬ ∀ (s : Surroundings Nat) (a : Arguments) (wait : KeWait Nat → WaitStatus),
      (osWaitForMultipleObjects s a wait).2.Right s := by
  intro h
  have hrg := h ⟨fun _ => .event, true, true, fun _ => .ok 4, fun _ _ => .ok 7⟩
    ⟨1, true, waitAnyObject, false, 0, true⟩ fun _ => .timeout
  have hlength := hrg.balanced.length_eq
  exact absurd hlength (by decide)

/-! ## What holds of every call -/

section

variable (s : Surroundings O) (a : Arguments)

/-- `KeWaitForMultipleObjects` is entered only with distinct dispatcher objects and a wait block for
each. -/
theorem osWaitForMultipleObjects_proper (wait : KeWait O → WaitStatus) :
    ∀ call ∈ (osWaitForMultipleObjects s a wait).2.waits, call.Proper s := by
  unfold osWaitForMultipleObjects
  by_cases hrf : a.refused = true
  · rw [if_pos hrf]
    exact noWaits_proper
  rw [if_neg hrf]
  cases s.objectsRoom with
  | false => exact noWaits_proper
  | true =>
    simp only [Bool.not_true, Bool.false_eq_true, if_false]
    by_cases hmn : threadWaitBlocks < a.objectCount
    · rw [if_pos hmn]
      cases s.waitBlocksRoom with
      | false => exact noWaits_proper
      | true => exact waitForHandles_proper wait _ (Nat.le_of_eq (getD_some ..).symm)
    · rw [if_neg hmn]
      refine waitForHandles_proper wait _ ?_
      rw [getD_none]
      omega

theorem osWaitForMultipleObjects_proper_one : ∃ (s : Surroundings Nat) (a : Arguments),
    ∃ call ∈ (osWaitForMultipleObjects s a fun _ => .timeout).2.waits, call.Proper s :=
  let ⟨call, h⟩ : ∃ call, call ∈ (osWaitForMultipleObjects (O := Nat)
      ⟨fun _ => .event, true, true, fun _ => .ok 4, fun _ _ => .ok 7⟩
      ⟨1, true, waitAnyObject, false, 0, true⟩ fun _ => .timeout).2.waits := ⟨_, mem_cons_self⟩
  ⟨_, _, call, h, osWaitForMultipleObjects_proper _ _ _ call h⟩

omit [DecidableEq O] in
/-- The call for one object drops what it takes. -/
theorem osWaitForSingleObject_right (handle : Nat) (wait : KeWait O → WaitStatus) :
    (osWaitForSingleObject s a handle wait).2.Right s := by
  unfold osWaitForSingleObject
  cases s.referenceByHandle 0 handle with
  | error e => exact right_nothing []
  | ok o =>
    dsimp only
    cases hy : expIsDispatchObject (s.type o) with
    | false => exact ⟨.refl _, noWaits_proper⟩
    | true =>
      refine ⟨.refl _, fun call hc => ?_⟩
      obtain rfl := mem_singleton.1 hc
      refine ⟨fun p hp => ?_, nodup_cons.2 ⟨not_mem_nil, nodup_nil⟩, ?_⟩
      · rw [mem_singleton.1 hp, hy]
      · exact (by decide : 1 ≤ threadWaitBlocks)

end

end Boron.Ex.WaitServices
