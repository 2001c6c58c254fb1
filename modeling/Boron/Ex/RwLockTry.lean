import Boron.Ex.RwLockSteps

/-! # Acquiring the read-write lock without blocking

With `DontBlock` an acquisition either takes the lock or reports that it would have to wait. The test
of `DontBlock` stands only on the branches on which the lock is not held exclusively; a lock that
another thread holds exclusively sends the caller into the wait (`heldByAnother`).

The shared acquisition drops the guard when its table is full, allocates a larger one and starts over.
`Others` is what the other threads make of the lock in these intervals, `roundAt` the lock its rounds
begin with. A round starts over only with every slot taken, so the table is larger in each next round,
and a call whose rounds find a bounded number of slots taken comes to an end (`roundAt_ends`). -/

namespace Boron.Ex

open Option

variable {T : Type} [DecidableEq T]

/-! ## What a call without blocking may do -/

namespace RwLock

/-- What an acquisition that fails leaves alone. -/
structure Unchanged (l l' : RwLock T) : Prop where
  heldCount : l'.heldCount = l.heldCount
  exclusiveOwner : l'.exclusiveOwner = l.exclusiveOwner
  slot : ∀ i ≤ l.ownerTableSize, l'.slot i = l.slot i
  sharedWaiterCount : l'.sharedWaiterCount = l.sharedWaiterCount
  exclusiveWaiterCount : l'.exclusiveWaiterCount = l.exclusiveWaiterCount

/-- The thread holds the lock exclusively. -/
def HeldExclusively (l : RwLock T) (t : T) : Prop :=
  l.heldCount ≠ 0 ∧ l.exclusiveOwner.thread = some t ∧ l.exclusiveOwner.locked ≠ 0

/-- The thread holds the lock in one of the shared slots. -/
def HeldShared (l : RwLock T) (t : T) : Prop :=
  l.heldCount ≠ 0 ∧
    ∃ i ≤ l.ownerTableSize, (l.slot i).thread = some t ∧ (l.slot i).locked ≠ 0

/-- A guarded section without blocking may take the lock, leave with a time-out, or start over with a
    larger table. It may not be about to call `ExWaitOnRwLock`. -/
def NeverWaits (l : RwLock T) (t : T) : RwLock T × Outcome → Prop
  | (l', .acquiredExclusive) => l'.HeldExclusively t
  | (l', .acquiredShared) => l'.HeldShared t
  | (l', .timeout) => l.Unchanged l'
  | (l', .grow) => l.Unchanged l'
  | (_, .waitExclusive) => False
  | (_, .waitShared _) => False

/-- Another thread holds the lock exclusively, or has been chosen to hold it next. -/
def heldByAnother (l : RwLock T) (t : T) : Prop :=
  l.heldCount ≠ 0 ∧ l.exclusiveOwner.locked ≠ 0 ∧ l.exclusiveOwner.thread ≠ some t

instance (l : RwLock T) (t : T) : Decidable (l.heldByAnother t) :=
  inferInstanceAs (Decidable (_ ∧ _ ∧ _))

omit [DecidableEq T] in
theorem Unchanged.refl (l : RwLock T) : l.Unchanged l := ⟨rfl, rfl, fun _ _ => rfl, rfl, rfl⟩

omit [DecidableEq T] in
theorem unchanged_growTable (l : RwLock T) (n : Nat) : l.Unchanged (l.growTable n) := by
  unfold growTable
  split
  · next hsize =>
      refine ⟨rfl, rfl, fun i hi => ?_, rfl, rfl⟩
      exact if_neg (by omega)
  · exact .refl l

end RwLock

/-- What the other threads make of the lock while a call has dropped the guard: in the `n`-th
    interval. No thread takes entries off the table. -/
structure Others (T : Type) where
  act : Nat → RwLock T → RwLock T
  grows : ∀ n l, l.ownerTableSize ≤ (act n l).ownerTableSize

namespace Others

/-- No other thread touches the lock. -/
def none : Others T := ⟨fun _ l => l, fun _ _ => Nat.le_refl _⟩

/-- The lock at the next round of `ExAcquireSharedRwLock`, if there is one. The guard is dropped twice:
    for the allocation, and before the loop starts over. -/
def nextRound (others : Others T) (t : T) (canStarve : Bool) (n : Nat) (l : RwLock T) :
    Option (RwLock T) :=
  match l.acquireShared t true canStarve with
  | (l, .grow) => some (others.act (2 * n + 1) ((others.act (2 * n) l).growTable l.ownerTableSize))
  | _ => .none

/-- The lock at the start of the `n`-th round of `ExAcquireSharedRwLock` with `DontBlock`. -/
def roundAt (others : Others T) (t : T) (canStarve : Bool) : Nat → RwLock T → Option (RwLock T)
  | 0, l => some l
  | n + 1, l => (others.roundAt t canStarve n l).bind (others.nextRound t canStarve n)

/-- A call of `ExAcquireSharedRwLock` with `DontBlock` as it should be: no round waits, a larger table
    changes nothing else, and the call returns, unless ever more slots are taken while it is allocating
    a table. -/
structure SharedRight (others : Others T) (t : T) (canStarve : Bool) (l : RwLock T) : Prop where
  rounds : ∀ n l', others.roundAt t canStarve n l = some l' →
    l'.NeverWaits t (l'.acquireShared t true canStarve)
  growth : ∀ n l', others.roundAt t canStarve n l = some l' →
    (others.act (2 * n) l').Unchanged ((others.act (2 * n) l').growTable l'.ownerTableSize)
  returns : ∀ bound, (∀ n l', others.roundAt t canStarve n l = some l' → l'.occupied ≤ bound) →
    ∃ n, others.roundAt t canStarve n l = .none

end Others

/-- A call of `ExAcquireExclusiveRwLock` with `DontBlock` as it should be. -/
def RwLock.ExclusiveRight (l : RwLock T) (t : T) : Prop :=
  l.NeverWaits t (l.acquireExclusive t true)

/-! ## The guarded sections -/

namespace RwLock

variable {l : RwLock T} {t : T}

theorem exclusiveRight_iff (l : RwLock T) (t : T) : l.ExclusiveRight t ↔ ¬ l.heldByAnother t := by
  unfold ExclusiveRight acquireExclusive heldByAnother
  split
  · next hh =>
      exact iff_of_true ⟨Nat.one_ne_zero, rfl, Nat.one_ne_zero⟩ fun h => h.1 hh
  · next hh =>
      split
      · next hw =>
          exact iff_of_true ⟨hh, rfl, Nat.succ_ne_zero _⟩ fun h => h.2.2 hw.2
      · next hw =>
          split
          · next hfr => exact iff_of_true (.refl l) fun h => h.2.1 hfr.1
          · next hfr =>
              -- the section that joins the exclusive waiters
              refine iff_of_false (fun h => h) fun h => h ⟨hh, ?_, ?_⟩
              · exact fun hlk => hfr ⟨hlk, rfl⟩
              · exact fun hth => hw ⟨fun hlk => hfr ⟨hlk, rfl⟩, hth⟩

/-- A section of the shared acquisition waits exactly when another thread holds the lock exclusively
    and a slot is free to wait with. -/
theorem sharedRound_iff (l : RwLock T) (t : T) (canStarve : Bool) :
    l.NeverWaits t (l.acquireShared t true canStarve) ↔ ¬ (l.heldByAnother t ∧ l.findFree ≠ none) := by
  unfold acquireShared heldByAnother
  split
  · next hh =>
      refine iff_of_true ⟨Nat.one_ne_zero, 0, Nat.zero_le _, ?_, ?_⟩ fun h => h.1.1 hh
      · exact congrArg Owner.thread setSlot_slot_self
      · exact (congrArg Owner.locked setSlot_slot_self).trans_ne Nat.one_ne_zero
  · next hh =>
      split
      · next hlk =>
          split
          · next hth =>
              exact iff_of_true ⟨hh, rfl, Nat.succ_ne_zero _⟩ fun h => h.1.2.2 hth
          · next hth =>
              cases hfr : l.findFree with
              | none => exact iff_of_true (.refl l) fun h => h.2 rfl
              | some i =>
                exact iff_of_false (fun h => h) fun h =>
                  h ⟨⟨hh, hlk, hth⟩, some_ne_none i⟩
      · next hlk =>
          refine iff_of_true ?_ fun h => hlk h.1.2.1
          -- nobody holds the lock exclusively
          cases hfn : l.findOwner t with
          | mustGrow => exact .refl l
          | exclusiveOwner => exact ⟨hh, rfl, Nat.succ_ne_zero _⟩
          | slot i =>
            have hi := (findOwner_slot hfn).1
            simp only
            split
            · refine ⟨hh, i, hi, ?_, ?_⟩
              · exact congrArg Owner.thread setSlot_slot_self
              · exact (congrArg Owner.locked setSlot_slot_self).trans_ne (Nat.succ_ne_zero _)
            · split
              · refine ⟨Nat.succ_ne_zero _, i, hi, ?_, ?_⟩
                · exact congrArg Owner.thread setSlot_slot_self
                · exact (congrArg Owner.locked setSlot_slot_self).trans_ne Nat.one_ne_zero
              · exact .refl l

/-! ## Starting over -/

theorem taken_of_tableFind (h : l.tableFind none = none) {i : Nat} (hi : i < l.ownerTableSize) :
    (l.slot (i + 1)).thread ≠ none := by
  rw [tableFind, map_eq_none_iff, List.find?_eq_none] at h
  intro hnn
  exact h i (List.mem_range.2 hi) (decide_eq_true hnn)

theorem occupied_of_taken (h0 : (l.slot 0).thread ≠ none) (hb : l.tableFind none = none) :
    l.occupied = l.ownerTableSize + 1 := by
  have htk : ∀ i ∈ Finset.range (l.ownerTableSize + 1),
      (if (l.slot i).thread = none then 0 else 1) = 1 := by
    intro i hi
    rw [if_neg]
    cases i with
    | zero => exact h0
    | succ i => exact taken_of_tableFind hb (Nat.lt_of_succ_lt_succ (Finset.mem_range.1 hi))
  rw [occupied, Finset.sum_congr rfl htk, ← Finset.card_eq_sum_ones, Finset.card_range]

theorem occupied_of_findFree (h : l.findFree = none) : l.occupied = l.ownerTableSize + 1 := by
  unfold findFree at h
  cases hb : l.tableFind none with
  | some i =>
    rw [hb] at h
    cases h
  | none =>
    rw [hb, orElse_none] at h
    split at h
    · cases h
    · next h0 => exact occupied_of_taken h0 hb

theorem occupied_of_findOwner (h : l.findOwner t = .mustGrow) : l.occupied = l.ownerTableSize + 1 := by
  unfold findOwner at h
  split at h
  · cases h
  · split at h
    · cases h
    · split at h
      · cases h
      · next h0 =>
          split at h
          · cases h
          · next hb => exact occupied_of_taken h0 hb

/-- A section that starts over found every slot taken, and has left the lock as it was. -/
theorem acquireShared_grow {canStarve : Bool} {l' : RwLock T}
    (h : l.acquireShared t true canStarve = (l', .grow)) :
    l' = l ∧ l.occupied = l.ownerTableSize + 1 := by
  unfold acquireShared claimAndWait at h
  split at h
  · cases h
  · split at h
    · split at h
      · cases h
      · split at h
        · next hfr =>
            cases h
            exact ⟨rfl, occupied_of_findFree hfr⟩
        · cases h
    · split at h
      · next hfn =>
          cases h
          exact ⟨rfl, occupied_of_findOwner hfn⟩
      · cases h
      · split at h
        · cases h
        · split at h
          · cases h
          · cases h

end RwLock

namespace Others

variable {others : Others T} {t : T} {canStarve : Bool} {l l' : RwLock T} {n : Nat}

theorem nextRound_spec (h : others.nextRound t canStarve n l = some l') :
    l.occupied = l.ownerTableSize + 1 ∧ l.ownerTableSize < l'.ownerTableSize ∧
      l' = others.act (2 * n + 1) ((others.act (2 * n) l).growTable l.ownerTableSize) := by
  unfold nextRound at h
  split at h
  · next l₀ hrn =>
      obtain ⟨rfl, hfl⟩ := RwLock.acquireShared_grow hrn
      cases h
      refine ⟨hfl, ?_, rfl⟩
      have hgr : l₀.ownerTableSize <
          ((others.act (2 * n) l₀).growTable l₀.ownerTableSize).ownerTableSize := by
        have := others.grows (2 * n) l₀
        unfold RwLock.growTable
        split
        · exact Nat.lt_add_of_pos_right (by decide)
        · omega
      exact Nat.lt_of_lt_of_le hgr (others.grows _ _)
  · cases h

theorem le_size_of_roundAt (h : others.roundAt t canStarve n l = some l') : n ≤ l'.ownerTableSize := by
  induction n generalizing l' with
  | zero => exact Nat.zero_le _
  | succ n ih =>
    obtain ⟨l₀, hrn, hnext⟩ := bind_eq_some_iff.1 h
    have := ih hrn
    have := (nextRound_spec hnext).2.1
    omega

theorem roundAt_ends {bound : Nat}
    (hb : ∀ n l', others.roundAt t canStarve n l = some l' → l'.occupied ≤ bound) :
    ∃ n, others.roundAt t canStarve n l = .none := by
  by_contra ha
  push Not at ha
  obtain ⟨l', hl'⟩ := ne_none_iff_exists'.1 (ha (bound + 1))
  obtain ⟨l₀, hrn, hnext⟩ := bind_eq_some_iff.1 hl'
  have := hb bound l₀ hrn
  have := le_size_of_roundAt hrn
  have := (nextRound_spec hnext).1
  omega

theorem sharedRight_iff (others : Others T) (t : T) (canStarve : Bool) (l : RwLock T) :
    others.SharedRight t canStarve l ↔ ∀ n l', others.roundAt t canStarve n l = some l' →
        ¬ (l'.heldByAnother t ∧ l'.findFree ≠ .none) := by
  constructor
  · intro h n l' hl'
    exact (l'.sharedRound_iff t canStarve).1 (h.rounds n l' hl')
  · intro h
    refine ⟨fun n l' hl' => ?_, fun n l' _ => RwLock.unchanged_growTable _ _, fun bound => roundAt_ends⟩
    exact (l'.sharedRound_iff t canStarve).2 (h n l' hl')

/-! ## A call that nobody disturbs -/

omit [DecidableEq T] in
theorem heldByAnother_growTable (l : RwLock T) (t : T) (n : Nat) :
    (l.growTable n).heldByAnother t ↔ l.heldByAnother t := by
  have h := l.unchanged_growTable n
  rw [RwLock.heldByAnother, RwLock.heldByAnother, h.heldCount, h.exclusiveOwner]

theorem heldByAnother_roundAt (h : (none : Others T).roundAt t canStarve n l = some l') :
    l'.heldByAnother t ↔ l.heldByAnother t := by
  induction n generalizing l' with
  | zero =>
    cases h
    exact Iff.rfl
  | succ n ih =>
    obtain ⟨l₀, hrn, hnext⟩ := bind_eq_some_iff.1 h
    obtain ⟨-, -, rfl⟩ := nextRound_spec hnext
    exact (heldByAnother_growTable l₀ t _).trans (ih hrn)

/-- A lock that another thread holds exclusively makes an undisturbed call wait, at the latest after
    the table has grown. -/
theorem exists_waiting_round (canStarve : Bool) (hh : l.heldByAnother t) :
    ∃ n l', (none : Others T).roundAt t canStarve n l = some l' ∧
      l'.heldByAnother t ∧ l'.findFree ≠ .none := by
  by_cases hfr : l.findFree = .none
  · obtain ⟨h0, hlk, hth⟩ := hh
    have hgr : l.acquireShared t true canStarve = (l, .grow) := by
      rw [RwLock.acquireShared, if_neg h0, if_pos hlk, if_neg hth, hfr]
    refine ⟨1, l.growTable l.ownerTableSize, ?_, ?_, ?_⟩
    · simp only [roundAt, bind_some, nextRound, hgr, none]
    · exact (heldByAnother_growTable l t _).2 ⟨h0, hlk, hth⟩
    · obtain ⟨i, hi⟩ := l.findFree_growTable
      rw [hi]
      exact some_ne_none i
  · exact ⟨0, l, rfl, hh, hfr⟩

theorem sharedRight_none_iff (t : T) (canStarve : Bool) (l : RwLock T) :
    (none : Others T).SharedRight t canStarve l ↔ ¬ l.heldByAnother t := by
  rw [sharedRight_iff]
  constructor
  · intro h hh
    obtain ⟨n, l', hrn, hw⟩ := exists_waiting_round canStarve hh
    exact h n l' hrn hw
  · intro h n l' hrn hw
    exact h ((heldByAnother_roundAt hrn).1 hw.1)

end Others

end Boron.Ex
