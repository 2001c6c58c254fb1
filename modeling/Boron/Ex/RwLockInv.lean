import Mathlib.Algebra.BigOperators.Ring.Finset
import Boron.Lib.Count
import Boron.Ex.RwLock

/-! # The invariant of the read-write lock

The invariant has four parts, each over the fields it needs: what the owner slots hold (`SlotsOk`),
what the counters count (`CountsOk`), who is blocked on the event and the semaphore (`QueuesOk`) and
who owns the lock exclusively (`Phase`). A slot is claimed before its shared waiter waits, so claimed
slots are those held and those waited with; `exclusive_alone` is the argument that an exclusive owner
leaves no slot of the first kind. -/

namespace Boron.Ex

open Option

variable {T : Type} [DecidableEq T] [Fintype T]

/-! ## Waits -/

namespace Pc

/-- The slot a shared waiter has claimed. -/
def sharedSlot : Pc → Option Nat
  | .aboutShared i => some i
  | .blockedShared i => some i
  | _ => none

/-- Is the thread a shared waiter? -/
def waitsShared (p : Pc) : Nat := if p.sharedSlot.isSome then 1 else 0

/-- Is the thread an exclusive waiter? -/
def waitsExclusive : Pc → Nat
  | .aboutExclusive => 1
  | .blockedExclusive => 1
  | _ => 0

/-- Is the thread blocked on the event or the semaphore? -/
def blocked : Pc → Bool
  | .blockedExclusive => true
  | .blockedShared _ => true
  | _ => false

/-- Neither waiting nor about to take the lock over. -/
structure Quiet (p : Pc) : Prop where
  sharedSlot : p.sharedSlot = none
  waitsExclusive : p.waitsExclusive = 0
  ne_woken : p ≠ .woken

/-- In the middle of a demotion. -/
def demoting : Pc → Prop
  | .growing _ .demote => True
  | .again .demote => True
  | _ => False

theorem quiet_idle : Quiet .idle := ⟨rfl, rfl, by decide⟩

theorem Quiet.waitsShared {p : Pc} (h : p.Quiet) : p.waitsShared = 0 := by
  simp [Pc.waitsShared, h.sharedSlot]

theorem Quiet.not_blocked {p : Pc} (h : p.Quiet) : p.blocked = false := by
  have h1 := h.sharedSlot
  have h2 := h.waitsExclusive
  cases p <;> simp_all [Pc.blocked, Pc.sharedSlot, Pc.waitsExclusive]

theorem waitsShared_of_slot {p : Pc} {i : Nat} (h : p.sharedSlot = some i) : p.waitsShared = 1 := by
  simp [Pc.waitsShared, h]

end Pc

/-! ## Slots -/

namespace RwLock

/-- The recursions recorded for a thread over all shared slots. -/
def total (l : RwLock T) (t : T) : Nat :=
  ∑ i ∈ Finset.range (l.ownerTableSize + 1),
    if (l.slot i).thread = some t then (l.slot i).locked else 0

/-- The number of shared slots with an owner. -/
def occupied (l : RwLock T) : Nat :=
  ∑ i ∈ Finset.range (l.ownerTableSize + 1), if (l.slot i).thread = none then 0 else 1

/-- `1` if the lock is held exclusively. -/
def exclusiveSlot (l : RwLock T) : Nat := if l.exclusiveOwner.locked = 0 then 0 else 1

end RwLock

/-- The shared slots agree with what the threads hold and wait with. -/
structure SlotsOk (l : RwLock T) (pc : T → Pc) (shared : T → Nat) : Prop where
  pos : ∀ i ≤ l.ownerTableSize, (l.slot i).thread ≠ none → 0 < (l.slot i).locked
  waits : ∀ t i, (pc t).sharedSlot = some i → i ≤ l.ownerTableSize ∧ l.slot i = ⟨1, some t⟩
  total : ∀ t, l.total t = shared t + (pc t).waitsShared

/-- The counters agree with the slots and the waiters. -/
structure CountsOk (l : RwLock T) (pc : T → Pc) : Prop where
  held : l.heldCount + l.sharedWaiterCount = l.occupied + l.exclusiveSlot
  sharedWaits : ∑ t, (pc t).waitsShared = l.sharedWaiterCount + l.semaphoreCount
  exclusiveWaits :
    ∑ t, (pc t).waitsExclusive = l.exclusiveWaiterCount + if l.eventSignaled then 1 else 0
  one : l.exclusiveOwner.locked ≠ 0 → l.heldCount = 1

/-- The event and the semaphore agree with the threads blocked on them. -/
structure QueuesOk (l : RwLock T) (pc : T → Pc) : Prop where
  event_mem : ∀ t, t ∈ l.eventWaiters ↔ pc t = .blockedExclusive
  event_nodup : l.eventWaiters.Nodup
  event_idle : l.eventSignaled = true → l.eventWaiters = []
  semaphore_mem : ∀ t, t ∈ l.semaphoreWaiters ↔ ∃ i, pc t = .blockedShared i
  semaphore_nodup : l.semaphoreWaiters.Nodup
  semaphore_idle : l.semaphoreCount ≠ 0 → l.semaphoreWaiters = []

/-- Who has the lock exclusively: nobody; the next thread to wait on the event; a thread through its
    wait; a thread that holds it. -/
inductive Phase (l : RwLock T) (pc : T → Pc) (exclusive : T → Nat) : Prop
  | free : l.exclusiveOwner = ⟨0, none⟩ → l.eventSignaled = false → (∀ t, pc t ≠ .woken) →
      (∀ t, exclusive t = 0) → Phase l pc exclusive
  | offered : l.exclusiveOwner = ⟨1, none⟩ → l.eventSignaled = true → (∀ t, pc t ≠ .woken) →
      (∀ t, exclusive t = 0) → Phase l pc exclusive
  | woken (t : T) : l.exclusiveOwner.locked = 1 →
      (∀ u, l.exclusiveOwner.thread = some u → u = t) → l.eventSignaled = false → pc t = .woken →
      (∀ u, u ≠ t → pc u ≠ .woken) → (∀ u, exclusive u = 0) → Phase l pc exclusive
  | owned (t : T) : l.exclusiveOwner = ⟨exclusive t, some t⟩ → 0 < exclusive t →
      l.eventSignaled = false → (∀ u, pc u ≠ .woken) → (∀ u, u ≠ t → exclusive u = 0) →
      Phase l pc exclusive

/-- What holds even in the middle of a release. -/
structure RwSystem.Core (s : RwSystem T) : Prop where
  slots : SlotsOk s.lock s.pc s.shared
  counts : CountsOk s.lock s.pc
  queues : QueuesOk s.lock s.pc
  phase : Phase s.lock s.pc s.exclusive
  demoting : ∀ t, (s.pc t).demoting → 0 < s.exclusive t

/-- What every step keeps: a lock that nobody holds has no waiters. -/
structure RwSystem.Inv (s : RwSystem T) : Prop extends s.Core where
  free : s.lock.heldCount = 0 → s.lock.sharedWaiterCount = 0 ∧ s.lock.exclusiveWaiterCount = 0

/-! ## An exclusive owner is alone -/

section

variable {l : RwLock T} {pc : T → Pc} {shared : T → Nat}

/-- The slots claimed by waiters. -/
def waitingSlots (l : RwLock T) (pc : T → Pc) : Finset Nat :=
  (Finset.range (l.ownerTableSize + 1)).filter fun i => ∃ t, (pc t).sharedSlot = some i

/-- The slots with an owner. -/
def ownedSlots (l : RwLock T) : Finset Nat :=
  (Finset.range (l.ownerTableSize + 1)).filter fun i => (l.slot i).thread ≠ none

omit [Fintype T] [DecidableEq T] in
theorem card_ownedSlots (l : RwLock T) : (ownedSlots l).card = l.occupied := by
  rw [ownedSlots, Finset.card_filter, RwLock.occupied]
  apply Finset.sum_congr rfl
  intro i _
  by_cases h : (l.slot i).thread = none <;> simp [h]

theorem SlotsOk.waiting_subset (h : SlotsOk l pc shared) : waitingSlots l pc ⊆ ownedSlots l := by
  intro i hi
  obtain ⟨hr, t, ht⟩ := Finset.mem_filter.1 hi
  refine Finset.mem_filter.2 ⟨hr, ?_⟩
  rw [(h.waits t i ht).2]
  simp

theorem SlotsOk.card_waitingSlots (h : SlotsOk l pc shared) :
    (waitingSlots l pc).card = ∑ t, (pc t).waitsShared := by
  have him : waitingSlots l pc = (Finset.univ.filter fun t => (pc t).sharedSlot.isSome).image
        fun t => (pc t).sharedSlot.getD 0 := by
    ext i
    simp only [waitingSlots, Finset.mem_filter, Finset.mem_range, Finset.mem_image, Finset.mem_univ,
      true_and]
    constructor
    · rintro ⟨-, t, ht⟩
      exact ⟨t, by simp [ht], by simp [ht]⟩
    · rintro ⟨t, ht, hti⟩
      obtain ⟨j, hj⟩ := isSome_iff_exists.1 ht
      rw [hj, getD_some] at hti
      subst hti
      exact ⟨Nat.lt_succ_of_le (h.waits t j hj).1, t, hj⟩
  rw [him, Finset.card_image_of_injOn, Finset.card_filter]
  · rfl
  · -- two waiters with one slot would both be its owner
    intro t ht u hu htu
    obtain ⟨i, hi⟩ := isSome_iff_exists.1 (Finset.mem_filter.1 ht).2
    obtain ⟨j, hj⟩ := isSome_iff_exists.1 (Finset.mem_filter.1 hu).2
    simp only [hi, hj, getD_some] at htu
    subst htu
    have hti := (h.waits t i hi).2
    rw [(h.waits u i hj).2] at hti
    simpa using hti.symm

/-- With an exclusive owner every claimed slot is a waiter's, and no token is out. -/
theorem exclusive_alone (hs : SlotsOk l pc shared) (hc : CountsOk l pc)
    (hx : l.exclusiveOwner.locked ≠ 0) : l.semaphoreCount = 0 ∧ ∀ t, shared t = 0 := by
  have hh := hc.held
  rw [hc.one hx, RwLock.exclusiveSlot, if_neg hx] at hh
  have hcr := hs.card_waitingSlots
  rw [hc.sharedWaits] at hcr
  have hw := card_ownedSlots l
  have hle := Finset.card_le_card hs.waiting_subset
  have heq : waitingSlots l pc = ownedSlots l :=
    Finset.eq_of_subset_of_card_le hs.waiting_subset (by omega)
  refine ⟨by omega, fun t => ?_⟩
  -- the slots of `t` are all the one it waits with
  have hss : ∀ i ∈ Finset.range (l.ownerTableSize + 1), (l.slot i).thread = some t →
      (pc t).sharedSlot = some i := by
    intro i hi hti
    have hme : i ∈ ownedSlots l := Finset.mem_filter.2 ⟨hi, by simp [hti]⟩
    rw [← heq] at hme
    obtain ⟨-, u, hu⟩ := Finset.mem_filter.1 hme
    have hui := (hs.waits u i hu).2
    rw [hui] at hti
    obtain rfl : u = t := some.inj hti
    exact hu
  have htl := hs.total t
  have hle' : l.total t ≤ (pc t).waitsShared := by
    rw [RwLock.total]
    cases hsl : (pc t).sharedSlot with
    | none =>
      refine (Finset.sum_eq_zero fun i hi => ?_).le.trans (Nat.zero_le _)
      rw [if_neg]
      intro hti
      simpa [hsl] using hss i hi hti
    | some j =>
      rw [Pc.waitsShared_of_slot hsl]
      have hj := hs.waits t j hsl
      have hsn : ∀ i ∈ Finset.range (l.ownerTableSize + 1), i ≠ j →
          (if (l.slot i).thread = some t then (l.slot i).locked else 0) = 0 := by
        intro i hi hij
        rw [if_neg]
        intro hti
        have := hss i hi hti
        rw [hsl] at this
        exact hij (some.inj this).symm
      rw [Finset.sum_eq_single_of_mem j (Finset.mem_range.2 (Nat.lt_succ_of_le hj.1)) hsn, hj.2]
      simp
  omega

end

end Boron.Ex
