import Boron.Ex.RwLockRules

/-! # Acquiring and waiting keep the invariant -/

namespace Boron.Ex

open Function Option

variable {T : Type} [DecidableEq T]

/-! ## What the searches find -/

namespace RwLock

variable {l : RwLock T} {t : T} {i : Nat}

theorem tableFind_spec {owner : Option T} (h : l.tableFind owner = some i) :
    i ≤ l.ownerTableSize ∧ (l.slot i).thread = owner := by
  obtain ⟨j, hj, rfl⟩ := map_eq_some_iff.1 h
  have hme := List.mem_range.1 (List.mem_of_find?_eq_some hj)
  exact ⟨hme, by simpa using List.find?_some hj⟩

theorem findFree_spec (h : l.findFree = some i) : i ≤ l.ownerTableSize ∧ (l.slot i).thread = none := by
  unfold findFree at h
  cases hb : l.tableFind none with
  | some j =>
    rw [hb] at h
    obtain rfl : j = i := some.inj h
    exact tableFind_spec hb
  | none =>
    simp only [hb, orElse_none] at h
    split at h
    · next hfr =>
        obtain rfl : 0 = i := some.inj h
        exact ⟨Nat.zero_le _, hfr⟩
    · simp at h

/-- The slot found for a thread that is not the exclusive owner is its own or free. -/
theorem findOwner_slot (h : l.findOwner t = .slot i) :
    i ≤ l.ownerTableSize ∧ ((l.slot i).thread = some t ∨ (l.slot i).thread = none) := by
  unfold findOwner at h
  split at h
  · simp at h
  · split at h
    · next hb =>
        obtain rfl := Found.slot.inj h
        exact ⟨(tableFind_spec hb).1, .inl (tableFind_spec hb).2⟩
    · split at h
      · next hfr =>
          obtain rfl := Found.slot.inj h
          exact ⟨Nat.zero_le _, .inr hfr⟩
      · split at h
        · next hb =>
            obtain rfl := Found.slot.inj h
            exact ⟨(tableFind_spec hb).1, .inr (tableFind_spec hb).2⟩
        · simp at h

theorem findOwner_exclusiveOwner (h : l.findOwner t = .exclusiveOwner) :
    l.exclusiveOwner.thread = some t := by
  unfold findOwner at h
  split at h
  · assumption
  · split at h
    · simp at h
    · split at h
      · simp at h
      · split at h <;> simp at h

theorem ownedSlot_spec (h : l.ownedSlot t = some i) :
    i ≤ l.ownerTableSize ∧ (l.slot i).thread = some t := by
  unfold ownedSlot at h
  split at h
  · next hw =>
      obtain rfl : 0 = i := some.inj h
      exact ⟨Nat.zero_le _, hw⟩
  · exact tableFind_spec h

theorem findFree_growTable (l : RwLock T) : ∃ i, (l.growTable l.ownerTableSize).findFree = some i := by
  have hsl : ((l.growTable l.ownerTableSize).slot (l.ownerTableSize + 1)).thread = none := by
    simp [growTable]
  have hsize : (l.growTable l.ownerTableSize).ownerTableSize = l.ownerTableSize + 4 := by
    simp [growTable]
  have hfn : ((l.growTable l.ownerTableSize).tableFind none).isSome = true := by
    rw [tableFind, isSome_map, List.find?_isSome]
    exact ⟨l.ownerTableSize, List.mem_range.2 (by omega), by simpa using hsl⟩
  obtain ⟨i, hi⟩ := isSome_iff_exists.1 hfn
  exact ⟨i, by rw [findFree, hi]; rfl⟩

omit [DecidableEq T] in
theorem slot_free_of_occupied (h : l.occupied = 0) (hi : i ≤ l.ownerTableSize) :
    (l.slot i).thread = none := by
  rw [occupied, Finset.sum_eq_zero_iff] at h
  have hsl := h i (Finset.mem_range.2 (Nat.lt_succ_of_le hi))
  by_contra hne
  simp [hne] at hsl

end RwLock

/-! ## Acquisition -/

variable [Fintype T]

namespace RwSystem

variable {s : RwSystem T} {t : T} {i : Nat} {q : Pc}

section

variable (h : s.Inv)
include h

/-- A thread moves between states in which it neither waits nor takes over. -/
theorem Inv.quiet (hp : (s.pc t).Quiet) (hq : q.Quiet)
    (hd : q.demoting → 0 < s.exclusive t) : (s.setPc t q).Inv where
  slots := h.slots.move (hq.sharedSlot.trans hp.sharedSlot.symm)
  counts := h.counts.move h.counts.held (by rw [hp.waitsShared, hq.waitsShared]; rfl)
    (by rw [hp.waitsExclusive, hq.waitsExclusive]; rfl) h.counts.one
  queues := h.queues.move hp.not_blocked hq.not_blocked
  phase := h.phase.move hp.ne_woken hq.ne_woken
  demoting := demoting_update h.demoting (fun _ _ => le_rfl) hd
  free := h.free

theorem Inv.grow (n : Nat) : Inv { s with lock := s.lock.growTable n } := by
  have hc : (s.lock.growTable n).occupied = s.lock.occupied := RwLock.grow_sums Owner.counts rfl n
  have hsm : ∀ {α : Type} (f : RwLock T → α),
      (∀ slot size, f { s.lock with slot := slot, ownerTableSize := size } = f s.lock) →
      f (s.lock.growTable n) = f s.lock := by
    intro α f hf
    unfold RwLock.growTable
    split
    · exact hf _ _
    · rfl
  have hh := hsm RwLock.heldCount fun _ _ => rfl
  have hsw := hsm RwLock.sharedWaiterCount fun _ _ => rfl
  have hew := hsm RwLock.exclusiveWaiterCount fun _ _ => rfl
  have hse := hsm RwLock.semaphoreCount fun _ _ => rfl
  have he := hsm RwLock.eventSignaled fun _ _ => rfl
  have hw := hsm RwLock.exclusiveOwner fun _ _ => rfl
  refine ⟨⟨h.slots.grow n, ⟨?_, ?_, ?_, ?_⟩,
    h.queues.congr he (hsm RwLock.eventWaiters fun _ _ => rfl) hse
      (hsm RwLock.semaphoreWaiters fun _ _ => rfl),
    h.phase.congr hw he fun _ => Iff.rfl, h.demoting⟩, ?_⟩
  · simpa [hh, hsw, hc, RwLock.exclusiveSlot, hw] using h.counts.held
  · simpa [hsw, hse] using h.counts.sharedWaits
  · simpa [hew, he] using h.counts.exclusiveWaits
  · simpa [hw, hh] using h.counts.one
  · simpa [hh, hsw, hew] using h.free

theorem Inv.claim (hp : (s.pc t).Quiet) (hi : i ≤ s.lock.ownerTableSize)
    (hfr : (s.lock.slot i).thread = none) (hh : s.lock.heldCount ≠ 0) :
    Inv ({ s with lock := (s.lock.claimAndWait t i).1 }.setPc t (.aboutShared i)) := by
  have hoc := RwLock.occupied_setSlot (o := ⟨1, some t⟩) hi
  have hc : Owner.counts ⟨1, some t⟩ = 1 := rfl
  have hc' : (s.lock.slot i).counts = 0 := by rw [Owner.counts, if_pos hfr]
  have hsl := h.slots.write (n := s.shared t) (o := ⟨1, some t⟩) (q := .aboutShared i) hi
    (.inl hfr) (.inr ⟨rfl, Nat.one_pos⟩) hp.sharedSlot (.inr ⟨rfl, rfl⟩)
    (by simp [Owner.share, hfr, Pc.waitsShared, Pc.sharedSlot])
  rw [update_eq_self] at hsl
  refine ⟨⟨hsl.congr rfl rfl, h.counts.move ?_ ?_ ?_ h.counts.one,
    (h.queues.move hp.not_blocked rfl).congr rfl rfl rfl rfl,
    (h.phase.move hp.ne_woken Pc.noConfusion).congr rfl rfl fun _ => Iff.rfl,
    demoting_update h.demoting (fun _ _ => le_rfl) False.elim⟩, fun h0 => absurd h0 hh⟩
  · show s.lock.heldCount + (s.lock.sharedWaiterCount + 1) =
      (s.lock.setSlot i ⟨1, some t⟩).occupied + s.lock.exclusiveSlot
    have := h.counts.held
    omega
  · show s.lock.sharedWaiterCount + 1 + s.lock.semaphoreCount + (s.pc t).waitsShared =
      s.lock.sharedWaiterCount + s.lock.semaphoreCount + 1
    rw [hp.waitsShared]
    omega
  · rw [hp.waitsExclusive]
    rfl

/-- A thread writes a slot that is free or its own and returns with a lock in shared mode. -/
theorem Inv.gainSlot {o : Owner T} {n : Nat} (hp : (s.pc t).Quiet) (hi : i ≤ s.lock.ownerTableSize)
    (hw : (s.lock.slot i).thread = none ∨ (s.lock.slot i).thread = some t)
    (ho : o.thread = some t ∧ 0 < o.locked) (hl : o.share t = (s.lock.slot i).share t + 1)
    (hh : n + s.lock.sharedWaiterCount + (s.lock.slot i).counts =
      s.lock.occupied + s.lock.exclusiveSlot + o.counts)
    (hone : s.lock.exclusiveOwner.locked ≠ 0 → n = 1)
    (hf : n = 0 → s.lock.sharedWaiterCount = 0 ∧ s.lock.exclusiveWaiterCount = 0) :
    Inv ({ s with lock := { s.lock.setSlot i o with heldCount := n } }.gainShared t) := by
  have hoc := RwLock.occupied_setSlot (o := o) hi
  have hsl := h.slots.write (n := s.shared t + 1) (q := .idle) hi hw (.inr ho) hp.sharedSlot (.inl rfl)
    (by
      rw [Pc.quiet_idle.waitsShared]
      omega)
  refine ⟨⟨hsl.congr rfl rfl, h.counts.move ?_ ?_ ?_ hone,
    (h.queues.move hp.not_blocked rfl).congr rfl rfl rfl rfl,
    (h.phase.move hp.ne_woken Pc.noConfusion).congr rfl rfl fun _ => Iff.rfl,
    demoting_update h.demoting (fun _ _ => le_rfl) False.elim⟩, hf⟩
  · show n + s.lock.sharedWaiterCount = (s.lock.setSlot i o).occupied + s.lock.exclusiveSlot
    omega
  · rw [hp.waitsShared]
    rfl
  · rw [hp.waitsExclusive]
    rfl

/-- A thread takes a free slot without waiting, the lock not being held exclusively. -/
theorem Inv.take (hp : (s.pc t).Quiet) (hi : i ≤ s.lock.ownerTableSize)
    (hfr : (s.lock.slot i).thread = none) (hx : s.lock.exclusiveOwner.locked = 0) :
    Inv ({ s with lock := { s.lock.setSlot i ⟨1, some t⟩ with
      heldCount := s.lock.heldCount + 1 } }.gainShared t) := by
  refine h.gainSlot hp hi (.inl hfr) ⟨rfl, Nat.one_pos⟩ (by simp [Owner.share, hfr]) ?_
    (fun h0 => absurd hx h0) fun h0 => absurd h0 (Nat.succ_ne_zero _)
  have := h.counts.held
  simp only [Owner.counts, hfr, if_true]
  rw [if_neg (some_ne_none t)]
  omega

theorem Inv.recurseShared (hp : (s.pc t).Quiet) (hi : i ≤ s.lock.ownerTableSize)
    (hw : (s.lock.slot i).thread = some t) :
    Inv ({ s with lock := s.lock.setSlot i ⟨(s.lock.slot i).locked + 1, some t⟩ }.gainShared t) := by
  refine h.gainSlot hp hi (.inr hw) ⟨rfl, Nat.succ_pos _⟩ (by simp [Owner.share, hw]) ?_ h.counts.one h.free
  have := h.counts.held
  simp only [Owner.counts, hw]
  omega

/-- A thread returns as the exclusive owner. -/
theorem Inv.own {n m : Nat} (hp : (s.pc t).Quiet) (hw : ∀ u, s.pc u ≠ .woken)
    (hnn : ∀ u, u ≠ t → s.exclusive u = 0) (he : s.lock.eventSignaled = false) (hn : n = 1)
    (hm : m = s.exclusive t + 1) (hh : s.lock.sharedWaiterCount = s.lock.occupied) :
    Inv ({ s with lock := { s.lock with
      heldCount := n, exclusiveOwner := ⟨m, some t⟩ } }.gainExclusive t) := by
  subst hm
  refine ⟨⟨(h.slots.move (q := .idle) hp.sharedSlot.symm).congr rfl rfl, h.counts.move ?_ ?_ ?_ fun _ => hn,
    (h.queues.move hp.not_blocked rfl).congr rfl rfl rfl rfl, .owned t ?_ ?_ he ?_ ?_,
    demoting_update h.demoting ?_ False.elim⟩, fun h1 => absurd (hn ▸ h1) Nat.one_ne_zero⟩
  · show n + s.lock.sharedWaiterCount = s.lock.occupied + 1
    omega
  · rw [hp.waitsShared]
    rfl
  · rw [hp.waitsExclusive]
    rfl
  · simp [gainExclusive]
  · simp [gainExclusive]
  · exact fun u => (woken_update_iff hp.ne_woken Pc.noConfusion u).not.2 (hw u)
  · intro u hu
    exact (update_of_ne hu ..).trans (hnn u hu)
  · intro u hu
    simp only [gainExclusive]
    rw [update_of_ne hu]

/-- A thread takes the free lock exclusively. -/
theorem Inv.takeExclusive (hp : (s.pc t).Quiet) (h0 : s.lock.heldCount = 0) :
    Inv ({ s with lock := { s.lock with
      heldCount := 1, exclusiveOwner := ⟨1, some t⟩ } }.gainExclusive t) := by
  have hx : s.lock.exclusiveOwner.locked = 0 := by
    by_contra hne
    have := h.counts.one hne
    omega
  obtain ⟨-, he, hw, hnn⟩ := h.phase.of_free hx
  have hh := h.counts.held
  rw [RwLock.exclusiveSlot, if_pos hx] at hh
  exact h.own hp hw (fun u _ => hnn u) he rfl (by rw [hnn]) (by omega)

theorem Inv.recurseExclusive (hp : (s.pc t).Quiet)
    (how : s.lock.exclusiveOwner.thread = some t) :
    Inv ({ s with lock := { s.lock with
      exclusiveOwner := ⟨s.lock.exclusiveOwner.locked + 1, some t⟩ } }.gainExclusive t) := by
  obtain ⟨hor, hpos, he, hw, hother⟩ := h.phase.of_owner how hp.ne_woken
  have hlk : s.lock.exclusiveOwner.locked = s.exclusive t := by rw [hor]
  have hone := h.counts.one (by omega)
  have hh := h.counts.held
  rw [RwLock.exclusiveSlot, if_neg (by omega)] at hh
  exact h.own hp hw hother he hone (by rw [hlk]) (by omega)

theorem Inv.recordExclusive (hp : (s.pc t).Quiet) (hh : s.lock.heldCount ≠ 0) :
    Inv ({ s with lock := { s.lock with
      exclusiveWaiterCount := s.lock.exclusiveWaiterCount + 1 } }.setPc t .aboutExclusive) := by
  refine ⟨⟨(h.slots.move (q := .aboutExclusive) hp.sharedSlot.symm).congr rfl rfl,
    h.counts.move h.counts.held ?_ ?_ h.counts.one,
    (h.queues.move hp.not_blocked rfl).congr rfl rfl rfl rfl,
    (h.phase.move hp.ne_woken Pc.noConfusion).congr rfl rfl fun _ => Iff.rfl,
    demoting_update h.demoting (fun _ _ => le_rfl) False.elim⟩, fun h0 => absurd h0 hh⟩
  · rw [hp.waitsShared]
    rfl
  · rw [hp.waitsExclusive]
    exact Nat.add_right_comm _ 1 _

/-- The guarded section of an exclusive acquisition. -/
theorem Inv.acquireExclusive (hp : (s.pc t).Quiet) (call : Call) (db : Bool) :
    (s.settle t call (s.lock.acquireExclusive t db)).Inv := by
  unfold RwLock.acquireExclusive
  split
  · next h0 => exact h.takeExclusive hp h0
  · next h0 =>
      split
      · next hw => exact h.recurseExclusive hp hw.2
      · split
        · exact h.quiet hp Pc.quiet_idle False.elim
        · exact h.recordExclusive hp h0

end

theorem quiet_growing (n : Nat) (call : Call) : (Pc.growing n call).Quiet :=
  ⟨rfl, rfl, Pc.noConfusion⟩

theorem quiet_again (call : Call) : (Pc.again call).Quiet := ⟨rfl, rfl, Pc.noConfusion⟩

/-- The guarded section of a shared acquisition. -/
theorem Inv.acquireShared (h : s.Inv) (hp : (s.pc t).Quiet) (db cs : Bool) :
    (s.settle t (.acquireShared db cs) (s.lock.acquireShared t db cs)).Inv := by
  have hgr : ∀ n, (s.setPc t (.growing n (.acquireShared db cs))).Inv :=
    fun n => h.quiet hp (quiet_growing n _) False.elim
  unfold RwLock.acquireShared
  split
  · next h0 =>
      -- nothing is claimed in a free lock
      have hh := h.counts.held
      have hfr := h.free h0
      have hx : s.lock.exclusiveOwner.locked = 0 := by
        by_contra hne
        rw [RwLock.exclusiveSlot, if_neg hne] at hh
        omega
      have htk := h.take hp (Nat.zero_le _)
        (RwLock.slot_free_of_occupied (i := 0) (by omega) (Nat.zero_le _)) hx
      rw [h0] at htk
      exact htk
  · next h0 =>
      split
      · split
        · next hw => exact h.recurseExclusive hp hw
        · split
          · exact hgr _
          · next i hi => exact h.claim hp (RwLock.findFree_spec hi).1 (RwLock.findFree_spec hi).2 h0
      · next hx =>
          have hx : s.lock.exclusiveOwner.locked = 0 := not_not.1 hx
          split
          · exact hgr _
          · next hfn => exact h.recurseExclusive hp (RwLock.findOwner_exclusiveOwner hfn)
          · next i hfn =>
              obtain ⟨hi, hsl⟩ := RwLock.findOwner_slot hfn
              split
              · next hw => exact h.recurseShared hp hi hw
              · next hw =>
                  have hfr := hsl.resolve_left hw
                  split
                  · exact h.take hp hi hfr hx
                  · split
                    · exact h.quiet hp Pc.quiet_idle False.elim
                    · exact h.claim hp hi hfr h0

/-! ## Waiting -/

section

variable (h : s.Inv)
include h

theorem Inv.consumeEvent (hc : s.pc t = .aboutExclusive)
    (he : s.lock.eventSignaled = true) :
    Inv ({ s with lock := { s.lock with eventSignaled := false } }.setPc t .woken) := by
  have hq := h.queues.move (t := t) (q := .woken) (by rw [hc]; rfl) rfl
  have hp : Phase { s.lock with eventSignaled := false } (update s.pc t .woken) s.exclusive := by
    cases h.phase with
    | free _ h2 => simp [he] at h2
    | woken _ _ _ h2 => simp [he] at h2
    | owned _ _ _ h2 => simp [he] at h2
    | offered h1 _ h3 h4 =>
      refine .woken t (by rw [h1]) (fun u hu => ?_) rfl (update_self ..) (fun u hu => ?_) h4
      · simp [h1] at hu
      · rw [update_of_ne hu]
        exact h3 u
  refine ⟨⟨(h.slots.move (t := t) (q := .woken) (by rw [hc]; rfl)).congr rfl rfl,
    h.counts.move h.counts.held ?_ ?_ h.counts.one,
    ⟨hq.event_mem, hq.event_nodup, fun h0 => absurd h0 Bool.false_ne_true,
      hq.semaphore_mem, hq.semaphore_nodup, hq.semaphore_idle⟩, hp,
    demoting_update h.demoting (fun _ _ => le_rfl) False.elim⟩, h.free⟩
  · rw [hc]
    rfl
  · rw [hc, he]
    rfl

/-- A waiter enters or leaves a queue and keeps its claim. -/
theorem Inv.requeue {p : Pc} (hp : s.pc t = p) {e w : List T}
    (hq : QueuesOk { s.lock with eventWaiters := e, semaphoreWaiters := w } (update s.pc t q))
    (hs : q.sharedSlot = p.sharedSlot) (he : q.waitsExclusive = p.waitsExclusive)
    (hw : p ≠ .woken) (hw' : q ≠ .woken) (hd : q.demoting → False) :
    Inv ({ s with lock := { s.lock with eventWaiters := e, semaphoreWaiters := w } }.setPc t q) := by
  subst hp
  exact ⟨⟨(h.slots.move hs).congr rfl rfl, h.counts.move h.counts.held
      (by rw [Pc.waitsShared, Pc.waitsShared, hs]; rfl) (by rw [he]; rfl) h.counts.one, hq,
    (h.phase.move hw hw').congr rfl rfl fun _ => Iff.rfl,
    demoting_update h.demoting (fun _ _ => le_rfl) fun h => (hd h).elim⟩, h.free⟩

theorem Inv.blockEvent (hp : s.pc t = .aboutExclusive) (he : s.lock.eventSignaled = false) :
    Inv ({ s with lock := { s.lock with
      eventWaiters := s.lock.eventWaiters ++ [t] } }.setPc t .blockedExclusive) :=
  h.requeue hp (h.queues.blockEvent hp he) rfl rfl Pc.noConfusion Pc.noConfusion id

/-- The wait of an exclusive waiter times out. -/
theorem Inv.leaveEvent (hp : s.pc t = .blockedExclusive) :
    Inv ({ s with lock := { s.lock with
      eventWaiters := s.lock.eventWaiters.erase t } }.setPc t .aboutExclusive) :=
  h.requeue hp (h.queues.leaveEvent hp rfl) rfl rfl Pc.noConfusion Pc.noConfusion id

theorem Inv.consumeToken (hp : s.pc t = .aboutShared i) (hc : s.lock.semaphoreCount ≠ 0) :
    Inv ({ s with lock := { s.lock with
      semaphoreCount := s.lock.semaphoreCount - 1 } }.gainShared t) := by
  have hsl : (s.pc t).sharedSlot = some i := by rw [hp]; rfl
  have hq := h.queues.move (t := t) (q := .idle) (by rw [hp]; rfl) rfl
  refine ⟨⟨(h.slots.pass hsl (q := .idle) rfl).congr rfl rfl,
    h.counts.move h.counts.held ?_ ?_ h.counts.one,
    ⟨hq.event_mem, hq.event_nodup, hq.event_idle, hq.semaphore_mem,
      hq.semaphore_nodup, fun _ => hq.semaphore_idle hc⟩,
    (h.phase.move (by rw [hp]; exact Pc.noConfusion) Pc.noConfusion).congr rfl rfl fun _ => Iff.rfl,
    demoting_update h.demoting (fun _ _ => le_rfl) False.elim⟩, h.free⟩
  · rw [Pc.waitsShared_of_slot hsl]
    show s.lock.sharedWaiterCount + (s.lock.semaphoreCount - 1) + 1 =
      s.lock.sharedWaiterCount + s.lock.semaphoreCount + 0
    omega
  · rw [hp]
    rfl

theorem Inv.blockSemaphore (hp : s.pc t = .aboutShared i) (hc : s.lock.semaphoreCount = 0) :
    Inv ({ s with lock := { s.lock with
      semaphoreWaiters := s.lock.semaphoreWaiters ++ [t] } }.setPc t (.blockedShared i)) :=
  h.requeue hp (h.queues.blockSemaphore hp hc) rfl rfl Pc.noConfusion Pc.noConfusion id

/-- The wait of a shared waiter times out. -/
theorem Inv.leaveSemaphore (hp : s.pc t = .blockedShared i) :
    Inv ({ s with lock := { s.lock with
      semaphoreWaiters := s.lock.semaphoreWaiters.erase t } }.setPc t (.aboutShared i)) :=
  h.requeue hp (h.queues.leaveSemaphore hp rfl) rfl rfl Pc.noConfusion Pc.noConfusion id

/-- An exclusive waiter returns as the owner. -/
theorem Inv.resume (hc : s.pc t = .woken) :
    Inv ({ s with lock := { s.lock with
      exclusiveOwner := ⟨s.lock.exclusiveOwner.locked, some t⟩ } }.gainExclusive t) := by
  have hp : Phase { s.lock with exclusiveOwner := ⟨s.lock.exclusiveOwner.locked, some t⟩ }
      (update s.pc t .idle) (update s.exclusive t (s.exclusive t + 1)) := by
    cases h.phase with
    | free _ _ h3 => exact absurd hc (h3 t)
    | offered _ _ h3 => exact absurd hc (h3 t)
    | owned _ _ _ _ h3 => exact absurd hc (h3 t)
    | woken u h1 h2 h3 h4 h5 h6 =>
      obtain rfl : t = u := by
        by_contra hne
        exact h5 t hne hc
      refine .owned t ?_ ?_ h3 ?_ ?_
      · simp [h1, h6]
      · simp
      · intro v
        by_cases hv : v = t
        · subst hv
          rw [update_self]
          exact Pc.noConfusion
        · rw [update_of_ne hv]
          exact h5 v hv
      · intro v hv
        rw [update_of_ne hv]
        exact h6 v
  refine ⟨⟨(h.slots.move (t := t) (q := .idle) (by rw [hc]; rfl)).congr rfl rfl,
    h.counts.move h.counts.held ?_ ?_ h.counts.one,
    (h.queues.move (t := t) (by rw [hc]; rfl) rfl).congr rfl rfl rfl rfl, hp,
    demoting_update h.demoting ?_ False.elim⟩, h.free⟩
  · rw [hc]
    rfl
  · rw [hc]
    rfl
  · intro u hu
    simp only [gainExclusive]
    rw [update_of_ne hu]

end

end RwSystem

end Boron.Ex
