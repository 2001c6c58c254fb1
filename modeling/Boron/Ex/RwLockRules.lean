import Boron.Ex.RwLockInv

/-! # Rules for the parts of the invariant

Each part of the invariant has a few rules, one for each way a step can touch it; the steps of the
lock are then put together from them. -/

namespace Boron.Ex

open Function List Option

variable {T : Type} [DecidableEq T]

/-! ## Rules for the slots -/

/-- What a slot contributes to a thread's recursions. -/
def Owner.share (o : Owner T) (t : T) : Nat := if o.thread = some t then o.locked else 0

/-- What a slot contributes to the occupied ones. -/
def Owner.counts (o : Owner T) : Nat := if o.thread = none then 0 else 1

section

variable {l : RwLock T} {pc : T → Pc} {shared : T → Nat} {t : T} {i : Nat} {o : Owner T} {q : Pc}

theorem RwLock.total_setSlot (u : T) (hi : i ≤ l.ownerTableSize) :
    (l.setSlot i o).total u + (l.slot i).share u = l.total u + o.share u :=
  sum_update _ (fun o : Owner T => o.share u) l.slot (Finset.mem_range.2 (Nat.lt_succ_of_le hi)) o

omit [DecidableEq T] in
theorem RwLock.occupied_setSlot (hi : i ≤ l.ownerTableSize) :
    (l.setSlot i o).occupied + (l.slot i).counts = l.occupied + o.counts :=
  sum_update _ Owner.counts l.slot (Finset.mem_range.2 (Nat.lt_succ_of_le hi)) o

omit [DecidableEq T] in
@[simp] theorem RwLock.setSlot_slot_self : (l.setSlot i o).slot i = o := update_self ..

omit [DecidableEq T] in
theorem RwLock.setSlot_slot_of_ne {j : Nat} (h : j ≠ i) : (l.setSlot i o).slot j = l.slot j :=
  update_of_ne h ..

/-- **Writing a slot.** A thread that is not waiting overwrites a free slot or one of its own; it may
    be waiting with that slot afterwards. -/
theorem SlotsOk.write (h : SlotsOk l pc shared) (hi : i ≤ l.ownerTableSize)
    (hold : (l.slot i).thread = none ∨ (l.slot i).thread = some t)
    (hw : o.thread = none ∨ o.thread = some t ∧ 0 < o.locked) (hp : (pc t).sharedSlot = none)
    (hq : q.sharedSlot = none ∨ q.sharedSlot = some i ∧ o = ⟨1, some t⟩) {n : Nat}
    (hn : n + q.waitsShared + (l.slot i).share t = shared t + o.share t) :
    SlotsOk (l.setSlot i o) (update pc t q) (update shared t n) := by
  have hother : ∀ u ≠ t, (l.slot i).share u = 0 ∧ o.share u = 0 := by
    intro u hu
    have hne : ∀ o' : Owner T, (o'.thread = none ∨ o'.thread = some t) → o'.share u = 0 := by
      intro o' ho'
      rw [Owner.share, if_neg]
      rcases ho' with ho' | ho' <;> rw [ho']
      · simp
      · simpa using Ne.symm hu
    exact ⟨hne _ hold, hne _ (hw.imp_right And.left)⟩
  refine ⟨fun j hj hh => ?_, fun u j hu => ?_, fun u => ?_⟩
  · by_cases hji : j = i
    · subst hji
      rw [RwLock.setSlot_slot_self] at hh ⊢
      rcases hw with hw | hw
      · exact absurd hw hh
      · exact hw.2
    · rw [RwLock.setSlot_slot_of_ne hji] at hh ⊢
      exact h.pos j hj hh
  · by_cases hut : u = t
    · subst hut
      rw [update_self] at hu
      rcases hq with hq | ⟨hq, ho⟩
      · simp [hq] at hu
      · obtain rfl : i = j := some.inj (hq.symm.trans hu)
        exact ⟨hi, by rw [RwLock.setSlot_slot_self, ho]⟩
    · rw [update_of_ne hut] at hu
      obtain ⟨hj, hsl⟩ := h.waits u j hu
      have hji : j ≠ i := by
        -- the slot of another waiter is neither free nor `t`'s
        intro hji
        subst hji
        rw [hsl] at hold
        rcases hold with hold | hold
        · simp at hold
        · exact hut (some.inj hold)
      exact ⟨hj, by rw [RwLock.setSlot_slot_of_ne hji, hsl]⟩
  · have hst := RwLock.total_setSlot (o := o) u hi
    have htl := h.total u
    by_cases hut : u = t
    · subst hut
      rw [update_self, update_self]
      have hil : (pc u).waitsShared = 0 := by simp [Pc.waitsShared, hp]
      omega
    · rw [update_of_ne hut, update_of_ne hut]
      have := hother u hut
      omega

theorem SlotsOk.congr {l' : RwLock T} (h : SlotsOk l pc shared)
    (hsl : l'.slot = l.slot) (hsize : l'.ownerTableSize = l.ownerTableSize) :
    SlotsOk l' pc shared := by
  have htl : ∀ t, l'.total t = l.total t := by
    intro t
    rw [RwLock.total, RwLock.total, hsl, hsize]
  exact ⟨by rw [hsl, hsize]; exact h.pos, by rw [hsl, hsize]; exact h.waits,
    fun t => (htl t).trans (h.total t)⟩

/-- A thread moves between states with the same claimed slot. -/
theorem SlotsOk.move (h : SlotsOk l pc shared) (hq : q.sharedSlot = (pc t).sharedSlot) :
    SlotsOk l (update pc t q) shared := by
  have hsm : ∀ u, (update pc t q u).sharedSlot = (pc u).sharedSlot := by
    intro u
    by_cases hut : u = t
    · subst hut
      rw [update_self, hq]
    · rw [update_of_ne hut]
  refine ⟨h.pos, fun u j hu => h.waits u j (hsm u ▸ hu), fun u => ?_⟩
  rw [h.total u, Pc.waitsShared, Pc.waitsShared, hsm u]

theorem SlotsOk.pass (h : SlotsOk l pc shared) (ht : (pc t).sharedSlot = some i)
    (hq : q.sharedSlot = none) :
    SlotsOk l (update pc t q) (update shared t (shared t + 1)) := by
  refine ⟨h.pos, fun u j hu => ?_, fun u => ?_⟩
  · by_cases hut : u = t
    · subst hut
      simp [hq] at hu
    · rw [update_of_ne hut] at hu
      exact h.waits u j hu
  · by_cases hut : u = t
    · subst hut
      rw [update_self, update_self, h.total u, Pc.waitsShared_of_slot ht]
      simp [Pc.waitsShared, hq]
    · rw [update_of_ne hut, update_of_ne hut]
      exact h.total u

omit [DecidableEq T] in
theorem RwLock.grow_sums (f : Owner T → Nat) (hf : f ⟨0, none⟩ = 0) (n : Nat) :
    ∑ j ∈ Finset.range ((l.growTable n).ownerTableSize + 1), f ((l.growTable n).slot j) =
      ∑ j ∈ Finset.range (l.ownerTableSize + 1), f (l.slot j) := by
  unfold RwLock.growTable
  split
  · next hsize =>
      subst hsize
      have hw : ∀ k, l.ownerTableSize < k → k ≤ l.ownerTableSize + 4 →
          f (if l.ownerTableSize < k ∧ k ≤ l.ownerTableSize + 4 then ⟨0, none⟩ else l.slot k) = 0 := by
        intro k hk hk'
        rw [if_pos ⟨hk, hk'⟩, hf]
      have hold : ∀ k ∈ Finset.range (l.ownerTableSize + 1),
          f (if l.ownerTableSize < k ∧ k ≤ l.ownerTableSize + 4 then ⟨0, none⟩ else l.slot k) =
            f (l.slot k) := by
        intro k hk
        rw [if_neg]
        have := Finset.mem_range.1 hk
        omega
      simp only [Finset.sum_range_succ _ (l.ownerTableSize + 4),
        Finset.sum_range_succ _ (l.ownerTableSize + 3), Finset.sum_range_succ _ (l.ownerTableSize + 2),
        Finset.sum_range_succ _ (l.ownerTableSize + 1)]
      rw [Finset.sum_congr rfl hold, hw _ (by omega) (by omega), hw _ (by omega) (by omega),
        hw _ (by omega) (by omega), hw _ (by omega) (by omega)]
      omega
  · rfl

theorem SlotsOk.grow (h : SlotsOk l pc shared) (n : Nat) : SlotsOk (l.growTable n) pc shared := by
  refine ⟨fun j hj hh => ?_, fun u j hu => ?_, fun u => ?_⟩
  · unfold RwLock.growTable at hj hh ⊢
    split at hj
    · next hsize =>
        simp only [hsize, if_true] at hh ⊢
        split at hh
        · simp at hh
        · next hjn =>
            have hj' : j ≤ n + 4 := hj
            rw [if_neg hjn]
            exact h.pos j (by omega) hh
    · next hsize =>
        rw [if_neg hsize] at hh ⊢
        exact h.pos j hj hh
  · obtain ⟨hj, hsl⟩ := h.waits u j hu
    unfold RwLock.growTable
    split
    · next hsize =>
        refine ⟨by simp only; omega, ?_⟩
        simp only
        rw [if_neg (by omega), hsl]
    · exact ⟨hj, hsl⟩
  · rw [← h.total u]
    exact RwLock.grow_sums (fun o : Owner T => o.share u) rfl n

end

/-! ## Rules for the queues -/

section

variable {l : RwLock T} {pc : T → Pc} {t : T} {q : Pc}

omit [DecidableEq T] in
theorem QueuesOk.congr {l' : RwLock T} (h : QueuesOk l pc)
    (he : l'.eventSignaled = l.eventSignaled) (hw : l'.eventWaiters = l.eventWaiters)
    (hc : l'.semaphoreCount = l.semaphoreCount) (hs : l'.semaphoreWaiters = l.semaphoreWaiters) :
    QueuesOk l' pc :=
  ⟨hw ▸ h.event_mem, hw ▸ h.event_nodup, by rw [he, hw]; exact h.event_idle, hs ▸ h.semaphore_mem,
    hs ▸ h.semaphore_nodup, by rw [hc, hs]; exact h.semaphore_idle⟩

/-- A thread that is not blocked moves to a state where it is not blocked. -/
theorem QueuesOk.move (h : QueuesOk l pc) (hc : (pc t).blocked = false) (hq : q.blocked = false) :
    QueuesOk l (update pc t q) := by
  have hne : ∀ p : Pc, p.blocked = false → p ≠ .blockedExclusive ∧ ∀ i, p ≠ .blockedShared i := by
    intro p hp
    constructor
    · rintro rfl
      simp [Pc.blocked] at hp
    · rintro i rfl
      simp [Pc.blocked] at hp
  refine ⟨fun u => ?_, h.event_nodup, h.event_idle, fun u => ?_, h.semaphore_nodup, h.semaphore_idle⟩
  · by_cases hu : u = t
    · subst hu
      rw [h.event_mem, update_self]
      exact iff_of_false (hne _ hc).1 (hne _ hq).1
    · rw [update_of_ne hu]
      exact h.event_mem u
  · by_cases hu : u = t
    · subst hu
      rw [h.semaphore_mem, update_self]
      exact iff_of_false (not_exists.2 (hne _ hc).2) (not_exists.2 (hne _ hq).2)
    · rw [update_of_ne hu]
      exact h.semaphore_mem u

theorem QueuesOk.blockEvent (h : QueuesOk l pc) (hp : pc t = .aboutExclusive)
    (he : l.eventSignaled = false) :
    QueuesOk { l with eventWaiters := l.eventWaiters ++ [t] } (update pc t .blockedExclusive) := by
  have hme : t ∉ l.eventWaiters := by
    rw [h.event_mem, hp]
    simp
  refine ⟨fun u => ?_, ?_, fun hs => ?_, fun u => ?_, h.semaphore_nodup, h.semaphore_idle⟩
  · by_cases hu : u = t
    · subst hu
      simp
    · rw [update_of_ne hu, ← h.event_mem u]
      simp [hu]
  · exact nodup_append.2 ⟨h.event_nodup, nodup_singleton _, by
      rintro a ha b hb rfl
      exact hme (mem_singleton.1 hb ▸ ha)⟩
  · simp [he] at hs
  · by_cases hu : u = t
    · subst hu
      rw [h.semaphore_mem, update_self, hp]
      simp
    · rw [update_of_ne hu]
      exact h.semaphore_mem u

theorem QueuesOk.blockSemaphore {i : Nat} (h : QueuesOk l pc) (hp : pc t = .aboutShared i)
    (hc : l.semaphoreCount = 0) :
    QueuesOk { l with semaphoreWaiters := l.semaphoreWaiters ++ [t] }
      (update pc t (.blockedShared i)) := by
  have hme : t ∉ l.semaphoreWaiters := by
    rw [h.semaphore_mem, hp]
    simp
  refine ⟨fun u => ?_, h.event_nodup, h.event_idle, fun u => ?_, ?_, fun hs => ?_⟩
  · by_cases hu : u = t
    · subst hu
      rw [h.event_mem, update_self, hp]
      simp
    · rw [update_of_ne hu]
      exact h.event_mem u
  · by_cases hu : u = t
    · subst hu
      simp
    · rw [update_of_ne hu, ← h.semaphore_mem u]
      simp [hu]
  · exact nodup_append.2 ⟨h.semaphore_nodup, nodup_singleton _, by
      rintro a ha b hb rfl
      exact hme (mem_singleton.1 hb ▸ ha)⟩
  · exact absurd hc hs

/-- A thread leaves the event's queue. -/
theorem QueuesOk.leaveEvent (h : QueuesOk l pc) (hp : pc t = .blockedExclusive)
    (hq : q.blocked = false) :
    QueuesOk { l with eventWaiters := l.eventWaiters.erase t } (update pc t q) := by
  refine ⟨fun u => ?_, h.event_nodup.erase t, fun hs => ?_, fun u => ?_, h.semaphore_nodup,
    h.semaphore_idle⟩
  · by_cases hu : u = t
    · subst hu
      rw [update_self]
      refine iff_of_false (h.event_nodup.not_mem_erase) ?_
      rintro rfl
      simp [Pc.blocked] at hq
    · rw [update_of_ne hu, ← h.event_mem u]
      exact mem_erase_of_ne hu
  · have := h.event_idle hs
    simp [this]
  · by_cases hu : u = t
    · subst hu
      rw [h.semaphore_mem, update_self, hp]
      refine iff_of_false (by simp) ?_
      rintro ⟨i, rfl⟩
      simp [Pc.blocked] at hq
    · rw [update_of_ne hu]
      exact h.semaphore_mem u

/-- A thread leaves the semaphore's queue. -/
theorem QueuesOk.leaveSemaphore {i : Nat} (h : QueuesOk l pc) (hp : pc t = .blockedShared i)
    (hq : q.blocked = false) :
    QueuesOk { l with semaphoreWaiters := l.semaphoreWaiters.erase t } (update pc t q) := by
  refine ⟨fun u => ?_, h.event_nodup, h.event_idle, fun u => ?_, h.semaphore_nodup.erase t,
    fun hs => ?_⟩
  · by_cases hu : u = t
    · subst hu
      rw [h.event_mem, update_self, hp]
      refine iff_of_false (by simp) ?_
      rintro rfl
      simp [Pc.blocked] at hq
    · rw [update_of_ne hu]
      exact h.event_mem u
  · by_cases hu : u = t
    · subst hu
      rw [update_self]
      refine iff_of_false (h.semaphore_nodup.not_mem_erase) ?_
      rintro ⟨j, rfl⟩
      simp [Pc.blocked] at hq
    · rw [update_of_ne hu, ← h.semaphore_mem u]
      exact mem_erase_of_ne hu
  · have := h.semaphore_idle hs
    simp [this]

end

/-! ## Rules for the phase -/

section

variable {l l' : RwLock T} {pc pc' : T → Pc} {exclusive : T → Nat} {t : T} {q : Pc}

omit [DecidableEq T] in
/-- The phase depends on the exclusive owner, the event and the threads through their wait. -/
theorem Phase.congr (h : Phase l pc exclusive) (ho : l'.exclusiveOwner = l.exclusiveOwner)
    (he : l'.eventSignaled = l.eventSignaled) (hw : ∀ u, pc' u = .woken ↔ pc u = .woken) :
    Phase l' pc' exclusive := by
  have hnw : ∀ u, pc u ≠ .woken → pc' u ≠ .woken := fun u hu h' => hu ((hw u).1 h')
  cases h with
  | free h1 h2 h3 h4 => exact .free (ho ▸ h1) (he ▸ h2) (fun u => hnw u (h3 u)) h4
  | offered h1 h2 h3 h4 => exact .offered (ho ▸ h1) (he ▸ h2) (fun u => hnw u (h3 u)) h4
  | woken u h1 h2 h3 h4 h5 h6 =>
    exact .woken u (ho ▸ h1) (ho ▸ h2) (he ▸ h3) ((hw u).2 h4) (fun v hv => hnw v (h5 v hv)) h6
  | owned u h1 h2 h3 h4 h5 => exact .owned u (ho ▸ h1) h2 (he ▸ h3) (fun v => hnw v (h4 v)) h5

theorem woken_update_iff (hp : pc t ≠ .woken) (hq : q ≠ .woken) (u : T) :
    update pc t q u = .woken ↔ pc u = .woken := by
  by_cases hu : u = t
  · subst hu
    rw [update_self]
    exact iff_of_false hq hp
  · rw [update_of_ne hu]

theorem Phase.move (h : Phase l pc exclusive) (hp : pc t ≠ .woken) (hq : q ≠ .woken) :
    Phase l (update pc t q) exclusive :=
  h.congr rfl rfl (woken_update_iff hp hq)

omit [DecidableEq T] in
theorem Phase.of_free (h : Phase l pc exclusive) (hx : l.exclusiveOwner.locked = 0) :
    l.exclusiveOwner = ⟨0, none⟩ ∧ l.eventSignaled = false ∧ (∀ u, pc u ≠ .woken) ∧
      ∀ u, exclusive u = 0 := by
  cases h with
  | free h1 h2 h3 h4 => exact ⟨h1, h2, h3, h4⟩
  | offered h1 => simp [h1] at hx
  | woken u h1 => omega
  | owned u h1 h2 =>
    rw [h1] at hx
    simp only at hx
    omega

omit [DecidableEq T] in
/-- A thread that is named as the owner and is not in its wait holds the lock. -/
theorem Phase.of_owner (h : Phase l pc exclusive) (hx : l.exclusiveOwner.thread = some t)
    (hp : pc t ≠ .woken) :
    l.exclusiveOwner = ⟨exclusive t, some t⟩ ∧ 0 < exclusive t ∧ l.eventSignaled = false ∧
      (∀ u, pc u ≠ .woken) ∧ ∀ u, u ≠ t → exclusive u = 0 := by
  cases h with
  | free h1 => simp [h1] at hx
  | offered h1 => simp [h1] at hx
  | woken u h1 h2 h3 h4 =>
    obtain rfl := h2 t hx
    exact absurd h4 hp
  | owned u h1 h2 h3 h4 h5 =>
    obtain rfl : u = t := by
      rw [h1] at hx
      exact some.inj hx
    exact ⟨h1, h2, h3, h4, h5⟩

theorem Phase.owner_of_pos (h : Phase l pc exclusive) (ht : 0 < exclusive t) :
    l.exclusiveOwner.thread = some t := by
  cases h with
  | free h1 h2 h3 h4 => simp [h4 t] at ht
  | offered h1 h2 h3 h4 => simp [h4 t] at ht
  | woken u h1 h2 h3 h4 h5 h6 => simp [h6 t] at ht
  | owned u h1 h2 h3 h4 h5 =>
    by_cases htu : t = u
    · rw [h1, htu]
    · simp [h5 t htu] at ht

end

/-! ## Rules for the counters -/

section

variable [Fintype T] {l l' : RwLock T} {pc : T → Pc} {t : T} {q : Pc}

/-- A thread moves, and the counters move with it. -/
theorem CountsOk.move (h : CountsOk l pc)
    (hh : l'.heldCount + l'.sharedWaiterCount = l'.occupied + l'.exclusiveSlot)
    (hsh : l'.sharedWaiterCount + l'.semaphoreCount + (pc t).waitsShared =
      l.sharedWaiterCount + l.semaphoreCount + q.waitsShared)
    (he : l'.exclusiveWaiterCount + (if l'.eventSignaled then 1 else 0) + (pc t).waitsExclusive =
        l.exclusiveWaiterCount + (if l.eventSignaled then 1 else 0) + q.waitsExclusive)
    (hon : l'.exclusiveOwner.locked ≠ 0 → l'.heldCount = 1) :
    CountsOk l' (update pc t q) := by
  have hS := sum_univ_update Pc.waitsShared pc t q
  have hX := sum_univ_update Pc.waitsExclusive pc t q
  refine ⟨hh, ?_, ?_, hon⟩
  · have := h.sharedWaits
    omega
  · have := h.exclusiveWaits
    omega

omit [Fintype T] in
/-- The demotions under way when a thread moves. -/
theorem demoting_update {exclusive exclusive' : T → Nat}
    (h : ∀ u, (pc u).demoting → 0 < exclusive u) (hle : ∀ u, u ≠ t → exclusive u ≤ exclusive' u)
    (hq : q.demoting → 0 < exclusive' t) (u : T) :
    (update pc t q u).demoting → 0 < exclusive' u := by
  by_cases hu : u = t
  · subst hu
    rw [update_self]
    exact hq
  · rw [update_of_ne hu]
    exact fun hd => (h u hd).trans_le (hle u hu)

end

end Boron.Ex
