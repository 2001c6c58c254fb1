import Boron.Ex.RwLockSteps

/-! # Releasing and demoting keep the invariant

A release that is not nested and a demotion let waiters through. Both pass a state in which the lock
may be free and still have waiters (`Core`); `Core.passOver` and `Core.wakeShared` say that the end of
the guarded section restores the invariant. -/

namespace Boron.Ex

open Function List Option

variable {T : Type} [DecidableEq T]

/-! ## Shared waiters getting through -/

namespace RwSystem

variable {s : RwSystem T} {t : T} {ts : List T}

@[simp] theorem gainAll_nil : s.gainAll [] = s := rfl

theorem gainAll_cons : s.gainAll (t :: ts) = (s.gainShared t).gainAll ts := rfl

@[simp] theorem gainAll_exclusive : (s.gainAll ts).exclusive = s.exclusive := by
  induction ts generalizing s with
  | nil => rfl
  | cons t ts ih =>
    rw [gainAll_cons, ih]
    rfl

theorem gainAll_pc (u : T) : (s.gainAll ts).pc u = if u ∈ ts then .idle else s.pc u := by
  induction ts generalizing s with
  | nil => simp
  | cons t ts ih =>
    rw [gainAll_cons, ih]
    by_cases hu : u = t
    · subst hu
      simp [gainShared]
    · simp [gainShared, hu]

theorem gainAll_withLock (l : RwLock T) :
    { s with lock := l }.gainAll ts = { s.gainAll ts with lock := l } := by
  induction ts generalizing s with
  | nil => rfl
  | cons t ts ih => exact ih (s := s.gainShared t)

theorem slots_gainAll {l : RwLock T} (h : SlotsOk l s.pc s.shared) (hnd : ts.Nodup)
    (hw : ∀ u ∈ ts, ∃ i, (s.pc u).sharedSlot = some i) :
    SlotsOk l (s.gainAll ts).pc (s.gainAll ts).shared := by
  induction ts generalizing s with
  | nil => exact h
  | cons t ts ih =>
    obtain ⟨hnt, hnd⟩ := nodup_cons.1 hnd
    obtain ⟨i, hi⟩ := hw t (mem_cons_self ..)
    rw [gainAll_cons]
    refine ih (h.pass hi rfl) hnd fun u hu => ?_
    have hut : u ≠ t := fun hut => hnt (hut ▸ hu)
    obtain ⟨j, hj⟩ := hw u (mem_cons_of_mem _ hu)
    exact ⟨j, by simpa [gainShared, hut] using hj⟩

variable [Fintype T]

theorem sum_waitsShared_gainAll (hnd : ts.Nodup) (hw : ∀ u ∈ ts, ∃ i, (s.pc u).sharedSlot = some i) :
    ∑ u, ((s.gainAll ts).pc u).waitsShared + ts.length = ∑ u, (s.pc u).waitsShared := by
  induction ts generalizing s with
  | nil => rfl
  | cons t ts ih =>
    obtain ⟨hnt, hnd⟩ := nodup_cons.1 hnd
    obtain ⟨i, hi⟩ := hw t (mem_cons_self ..)
    have hrs : ∀ u ∈ ts, ∃ i, ((s.gainShared t).pc u).sharedSlot = some i := by
      intro u hu
      have hut : u ≠ t := fun hut => hnt (hut ▸ hu)
      obtain ⟨j, hj⟩ := hw u (mem_cons_of_mem _ hu)
      exact ⟨j, by simpa [gainShared, hut] using hj⟩
    have hsm := ih hnd hrs
    have hon : ∑ u, ((s.gainShared t).pc u).waitsShared + (s.pc t).waitsShared =
        ∑ u, (s.pc u).waitsShared + Pc.idle.waitsShared := sum_univ_update Pc.waitsShared s.pc t .idle
    rw [Pc.waitsShared_of_slot hi, Pc.quiet_idle.waitsShared] at hon
    rw [gainAll_cons, length_cons]
    omega

end RwSystem

namespace RwLock

variable {l l' : RwLock T} {ts : List T}

/-- The semaphore, whose count is 16 bits wide, can let every recorded waiter through. -/
def Fits (l : RwLock T) : Prop :=
  l.sharedWaiterCount < 65536 ∨ l.sharedWaiterCount = 65536 ∧ l.semaphoreWaiters ≠ []

omit [DecidableEq T] in
/-- With a token for each of them, all blocked threads wake. -/
theorem semaphoreTest_all (q : List T) {n : Nat} (hq : q.length ≤ n)
    (hn : n < 65536 ∨ n = 65536 ∧ q ≠ []) :
    semaphoreTest (n % 65536) q = (n - q.length, q, []) := by
  induction q generalizing n with
  | nil =>
    have : n < 65536 := hn.resolve_right fun h => h.2 rfl
    simp [semaphoreTest, Nat.mod_eq_of_lt this]
  | cons u rest ih =>
    rw [length_cons] at hq
    have hcount : (n % 65536 + 65535) % 65536 = n - 1 := by omega
    have hmd : (n - 1) % 65536 = n - 1 := by omega
    unfold semaphoreTest
    simp only [hcount]
    split
    · next h0 =>
        obtain rfl : rest = [] := eq_nil_of_length_eq_zero (by omega)
        simp [h0]
    · have hrs := ih (n := n - 1) (by omega) (.inl (by omega))
      rw [hmd] at hrs
      rw [hrs]
      simp only [length_cons, Prod.mk.injEq, and_true]
      omega

omit [DecidableEq T] in
/-- Those blocked wake, and there is a token for each of the others. -/
theorem wakeShared_eq {held : Nat} (hsm : l.semaphoreCount = 0)
    (hle : l.semaphoreWaiters.length ≤ l.sharedWaiterCount) (hft : l.Fits)
    (hw : l.wakeShared held = some (l', ts)) :
    ts = l.semaphoreWaiters ∧
      l' = { l with
        heldCount := held + l.sharedWaiterCount
        sharedWaiterCount := 0
        semaphoreCount := l.sharedWaiterCount - l.semaphoreWaiters.length
        semaphoreWaiters := [] } := by
  unfold wakeShared releaseSemaphore at hw
  simp only [hsm, Nat.zero_add, semaphoreTest_all _ hle hft] at hw
  split at hw
  · simp at hw
  · simp only [some.injEq, Prod.mk.injEq] at hw
    exact ⟨hw.2.symm, hw.1.symm⟩

end RwLock

namespace RwSystem

variable [Fintype T] {s : RwSystem T} {t : T} {i : Nat}

section

variable (h : s.Core) (hx : s.lock.exclusiveOwner.locked = 0)
include h hx

theorem Core.wakeShared (hse : s.lock.semaphoreCount = 0) (hw : s.lock.sharedWaiterCount ≠ 0)
    (hft : s.lock.Fits) {l : RwLock T} {ts : List T}
    (hwk : s.lock.wakeShared s.lock.heldCount = some (l, ts)) :
    ({ s with lock := l }.gainAll ts).Inv := by
  have hb : ∀ u ∈ s.lock.semaphoreWaiters, ∃ i, (s.pc u).sharedSlot = some i := by
    intro u hu
    obtain ⟨i, hi⟩ := (h.queues.semaphore_mem u).1 hu
    exact ⟨i, by rw [hi]; rfl⟩
  have hsu := sum_waitsShared_gainAll h.queues.semaphore_nodup hb
  have hwt := h.counts.sharedWaits
  have hle : s.lock.semaphoreWaiters.length ≤ s.lock.sharedWaiterCount := by omega
  obtain ⟨rfl, rfl⟩ := RwLock.wakeShared_eq hse hle hft hwk
  rw [gainAll_withLock]
  -- a thread that was not blocked on the semaphore stays where it is
  have hc : ∀ u, (s.gainAll s.lock.semaphoreWaiters).pc u = .idle ∨
      (s.gainAll s.lock.semaphoreWaiters).pc u = s.pc u := by
    intro u
    rw [gainAll_pc]
    split
    · exact .inl rfl
    · exact .inr rfl
  have hsm : ∀ u p, p ≠ .idle → (∀ i, p ≠ .blockedShared i) →
      ((s.gainAll s.lock.semaphoreWaiters).pc u = p ↔ s.pc u = p) := by
    intro u p hil hh
    rw [gainAll_pc]
    split
    · next hu =>
        obtain ⟨i, hi⟩ := (h.queues.semaphore_mem u).1 hu
        rw [hi]
        exact iff_of_false (Ne.symm hil) (Ne.symm (hh i))
    · exact Iff.rfl
  refine ⟨⟨(slots_gainAll h.slots h.queues.semaphore_nodup hb).congr rfl rfl,
    ⟨?_, ?_, ?_, fun h0 => absurd hx h0⟩,
    ⟨fun u => ?_, h.queues.event_nodup, h.queues.event_idle, fun u => ?_, nodup_nil,
      fun _ => rfl⟩, ?_, fun u hu => ?_⟩, fun h0 => ?_⟩
  · show s.lock.heldCount + s.lock.sharedWaiterCount + 0 = s.lock.occupied + s.lock.exclusiveSlot
    exact h.counts.held
  · show ∑ u, ((s.gainAll s.lock.semaphoreWaiters).pc u).waitsShared =
      0 + (s.lock.sharedWaiterCount - s.lock.semaphoreWaiters.length)
    omega
  · refine Eq.trans (Finset.sum_congr rfl fun u _ => ?_) h.counts.exclusiveWaits
    show ((s.gainAll s.lock.semaphoreWaiters).pc u).waitsExclusive = _
    rw [gainAll_pc]
    split
    · next hu =>
        obtain ⟨i, hi⟩ := (h.queues.semaphore_mem u).1 hu
        rw [hi]
        rfl
    · rfl
  · exact (h.queues.event_mem u).trans (hsm u _ Pc.noConfusion fun _ => Pc.noConfusion).symm
  · refine iff_of_false not_mem_nil ?_
    rintro ⟨i, hi⟩
    simp only [gainAll_pc] at hi
    split at hi
    · exact Pc.noConfusion hi
    · next hu => exact hu ((h.queues.semaphore_mem u).2 ⟨i, hi⟩)
  · have he : (s.gainAll s.lock.semaphoreWaiters).exclusive = s.exclusive :=
      gainAll_exclusive
    have hp := h.phase
    rw [← he] at hp
    exact hp.congr rfl rfl fun u => hsm u _ Pc.noConfusion fun _ => Pc.noConfusion
  · show 0 < (s.gainAll s.lock.semaphoreWaiters).exclusive u
    rw [gainAll_exclusive]
    rcases hc u with hu' | hu' <;> simp only [hu'] at hu
    · exact hu.elim
    · exact h.demoting u hu
  · have : s.lock.heldCount + s.lock.sharedWaiterCount = 0 := h0
    omega

theorem Core.handOver (h0 : s.lock.heldCount = 0) (hwr : s.lock.exclusiveWaiterCount ≠ 0) :
    let r :=
      { s.lock with
        heldCount := 1
        exclusiveWaiterCount := s.lock.exclusiveWaiterCount - 1 }.setEventAndGetWaiter
    ({ s with lock := { r.1 with exclusiveOwner := ⟨1, r.2⟩ } }.wake r.2).Inv := by
  obtain ⟨-, he, hw, hnn⟩ := h.phase.of_free hx
  have hh : 1 + s.lock.sharedWaiterCount = s.lock.occupied + 1 := by
    have hh := h.counts.held
    rw [RwLock.exclusiveSlot, if_pos hx] at hh
    omega
  have hwt := h.counts.exclusiveWaits
  rw [he] at hwt
  simp only [RwLock.setEventAndGetWaiter]
  cases hq : s.lock.eventWaiters with
  | nil =>
    -- nobody is blocked yet: the event stays signaled for the first to come
    refine ⟨⟨h.slots.congr rfl rfl, ⟨hh, h.counts.sharedWaits, ?_, fun _ => rfl⟩,
      ⟨?_, nodup_nil, fun _ => rfl, h.queues.semaphore_mem, h.queues.semaphore_nodup,
        h.queues.semaphore_idle⟩, .offered rfl rfl hw hnn, h.demoting⟩,
      fun h1 => absurd h1 Nat.one_ne_zero⟩
    · show ∑ u, (s.pc u).waitsExclusive = s.lock.exclusiveWaiterCount - 1 + 1
      simp only [Bool.false_eq_true, if_false] at hwt
      omega
    · have hme := h.queues.event_mem
      rw [hq] at hme
      exact hme
  | cons u rest =>
    have hu : s.pc u = .blockedExclusive := (h.queues.event_mem u).1 (by simp [hq])
    have hqs := h.queues.leaveEvent (q := .woken) hu rfl
    rw [hq, erase_cons_head] at hqs
    refine ⟨⟨(h.slots.move (t := u) (q := .woken) (by rw [hu]; rfl)).congr rfl rfl,
      h.counts.move hh ?_ ?_ fun _ => rfl, hqs.congr rfl rfl rfl rfl,
      .woken u rfl ?_ he (update_self ..) ?_ hnn,
      demoting_update h.demoting (fun _ _ => le_rfl) False.elim⟩,
      fun h1 => absurd h1 Nat.one_ne_zero⟩
    · rw [hu]
      rfl
    · rw [hu]
      show s.lock.exclusiveWaiterCount - 1 + (if s.lock.eventSignaled then 1 else 0) + 1 =
        s.lock.exclusiveWaiterCount + (if s.lock.eventSignaled then 1 else 0) + 0
      omega
    · intro v hv
      exact (some.inj hv).symm
    · intro v hv
      exact (update_of_ne hv ..).trans_ne (hw v)

theorem Core.no_tokens (h0 : s.lock.heldCount = 0) : s.lock.semaphoreCount = 0 := by
  have hh := h.counts.held
  rw [RwLock.exclusiveSlot, if_pos hx] at hh
  have hc := h.slots.card_waitingSlots
  have hle := Finset.card_le_card h.slots.waiting_subset
  rw [card_ownedSlots] at hle
  have hw := h.counts.sharedWaits
  omega

end

/-! ## Release -/

variable {r : RwLock T × RwLock.Wakes T}

/-- The end of a release: whoever waits is let through if nobody holds the lock any more. -/
theorem Core.passOver (h : Core { s with lock := { s.lock with heldCount := s.lock.heldCount - 1 } })
    (hx : s.lock.exclusiveOwner.locked = 0) {exc : Bool}
    (hft : s.lock.heldCount ≤ 1 → (exc = true ∨ s.lock.exclusiveWaiterCount = 0) → s.lock.Fits) (hr : s.lock.passOver exc = some r) :
    (({ s with lock := r.1 }.gainAll r.2.shared).wake r.2.exclusive).Inv := by
  simp only [RwLock.passOver] at hr
  split at hr
  · next h0 =>
      split at hr
      · next hp =>
          simp only [Bool.and_eq_true, bne_iff_ne] at hp
          cases hr
          exact h.handOver hx h0 hp.2
      · next hp =>
          simp only [Bool.and_eq_true, Bool.or_eq_true, bne_iff_ne, Bool.not_eq_true', beq_iff_eq]
            at hp
          split at hr
          · next hw =>
              obtain ⟨⟨l, ts⟩, hwk, rfl⟩ := map_eq_some_iff.1 hr
              have hc : exc = true ∨ s.lock.exclusiveWaiterCount = 0 := by
                cases exc with
                | true => exact .inl rfl
                | false =>
                  right
                  by_contra hne
                  exact hp ⟨.inl rfl, hne⟩
              have hwk' : s.lock.wakeShared (s.lock.heldCount - 1) = some (l, ts) := by
                rw [h0]
                exact hwk
              exact h.wakeShared hx (h.no_tokens hx h0) hw (hft (by omega) hc) hwk'
          · next hw =>
              have hw : s.lock.sharedWaiterCount = 0 := not_not.1 hw
              cases hr
              rw [h0] at h
              refine ⟨h, fun _ => ⟨hw, ?_⟩⟩
              by_contra hne
              exact hp ⟨.inr hw, hne⟩
  · next h0 =>
      cases hr
      exact ⟨h, fun h0' => absurd h0' h0⟩

theorem Core.held_pos (h : s.Core) (hp : (s.pc t).sharedSlot = none) (hi : i ≤ s.lock.ownerTableSize)
    (how : (s.lock.slot i).thread = some t) (hx : s.lock.exclusiveOwner.locked = 0) :
    0 < s.lock.heldCount := by
  have hme : i ∈ ownedSlots s.lock :=
    Finset.mem_filter.2 ⟨Finset.mem_range.2 (Nat.lt_succ_of_le hi), by simp [how]⟩
  have hnt : i ∉ waitingSlots s.lock s.pc := by
    intro hi
    obtain ⟨-, u, hu⟩ := Finset.mem_filter.1 hi
    rw [(h.slots.waits u i hu).2] at how
    obtain rfl : u = t := some.inj how
    rw [hp] at hu
    simp at hu
  have hlt := Finset.card_lt_card
    ((Finset.ssubset_iff_of_subset h.slots.waiting_subset).2 ⟨i, hme, hnt⟩)
  rw [card_ownedSlots, h.slots.card_waitingSlots] at hlt
  have hw := h.counts.sharedWaits
  have hh := h.counts.held
  rw [RwLock.exclusiveSlot, if_pos hx] at hh
  omega

theorem Inv.nestedExclusive (h : s.Inv) (hp : (s.pc t).Quiet)
    (how : s.lock.exclusiveOwner.thread = some t) (hns : s.lock.exclusiveOwner.locked - 1 ≠ 0) :
    Inv { s with
      lock := { s.lock with exclusiveOwner := ⟨s.lock.exclusiveOwner.locked - 1, some t⟩ }
      exclusive := update s.exclusive t (s.exclusive t - 1) } := by
  obtain ⟨hor, hpos, he, hw, hother⟩ := h.phase.of_owner how hp.ne_woken
  have hlk : s.lock.exclusiveOwner.locked = s.exclusive t := by rw [hor]
  refine ⟨⟨h.slots.congr rfl rfl, ⟨?_, h.counts.sharedWaits, h.counts.exclusiveWaits, fun _ => ?_⟩,
    h.queues.congr rfl rfl rfl rfl, .owned t ?_ ?_ he hw fun u hu => ?_, fun u hu => ?_⟩, h.free⟩
  · have hh := h.counts.held
    rw [RwLock.exclusiveSlot, if_neg (by omega)] at hh
    show s.lock.heldCount + s.lock.sharedWaiterCount = s.lock.occupied + (if _ then 0 else 1)
    rw [if_neg hns]
    exact hh
  · exact h.counts.one (by omega)
  · simp [hlk]
  · simp only [update_self]
    omega
  · simp only [update_of_ne hu]
    exact hother u hu
  · have hu' := h.demoting u hu
    by_cases hut : u = t
    · subst hut
      simp only [update_self]
      omega
    · simp only [update_of_ne hut]
      exact hu'

theorem Inv.lastExclusive (h : s.Inv) (hp : s.pc t = .idle)
    (how : s.lock.exclusiveOwner.thread = some t) (hls : s.lock.exclusiveOwner.locked - 1 = 0) :
    Core { s with
      lock := { s.lock with exclusiveOwner := ⟨0, none⟩, heldCount := s.lock.heldCount - 1 }
      exclusive := update s.exclusive t (s.exclusive t - 1) } := by
  obtain ⟨hor, hpos, he, hw, hother⟩ :=
    h.phase.of_owner how (by rw [hp]; exact Pc.noConfusion)
  have hlk : s.lock.exclusiveOwner.locked = s.exclusive t := by rw [hor]
  have hon := h.counts.one (by omega)
  have hnn : ∀ u, update s.exclusive t (s.exclusive t - 1) u = 0 := by
    intro u
    by_cases hut : u = t
    · subst hut
      rw [update_self]
      omega
    · rw [update_of_ne hut]
      exact hother u hut
  refine ⟨h.slots.congr rfl rfl, ⟨?_, h.counts.sharedWaits, h.counts.exclusiveWaits,
    fun h0 => absurd rfl h0⟩, h.queues.congr rfl rfl rfl rfl, .free rfl he hw hnn,
    fun u hu => ?_⟩
  · have hh := h.counts.held
    rw [RwLock.exclusiveSlot, if_neg (by omega)] at hh
    show s.lock.heldCount - 1 + s.lock.sharedWaiterCount = s.lock.occupied + 0
    omega
  · -- only the owner can be in a demotion, and it is idle
    have hu' := h.demoting u hu
    by_cases hut : u = t
    · subst hut
      simp only [hp] at hu
      exact hu.elim
    · rw [hother u hut] at hu'
      omega

/-- A shared owner gives up one recursion of its slot; the last one frees the slot. -/
theorem Inv.giveUpSlot (h : s.Inv) (hp : (s.pc t).sharedSlot = none) (hi : i ≤ s.lock.ownerTableSize)
    (how : (s.lock.slot i).thread = some t) {o : Owner T} (ho : o.locked = (s.lock.slot i).locked - 1)
    (hh : o.thread = if o.locked = 0 then none else some t) :
    SlotsOk (s.lock.setSlot i o) s.pc (update s.shared t (s.shared t - 1)) := by
  have hpos := h.slots.pos i hi (by simp [how])
  have hle : 1 ≤ s.shared t := by
    have htl := h.slots.total t
    have hsl := RwLock.total_setSlot (o := ⟨0, none⟩) t hi
    have hw : (s.pc t).waitsShared = 0 := by simp [Pc.waitsShared, hp]
    simp only [Owner.share, how, if_true, reduceCtorEq, if_false] at hsl
    omega
  have hsh : (s.lock.slot i).share t = (s.lock.slot i).locked := by simp [Owner.share, how]
  have hsh' : o.share t = o.locked := by
    rw [Owner.share, hh]
    by_cases h0 : o.locked = 0 <;> simp [h0]
  have hss := h.slots.write (n := s.shared t - 1) (o := o) (q := s.pc t) hi (.inr how) (by
      rw [hh]
      by_cases h0 : o.locked = 0
      · simp [h0]
      · simp [h0, Nat.pos_of_ne_zero h0])
    hp (.inl hp) (by
      have hw : (s.pc t).waitsShared = 0 := by simp [Pc.waitsShared, hp]
      omega)
  rwa [update_eq_self] at hss

theorem Inv.not_exclusive (h : s.Inv) (hh : 0 < s.shared t) : s.lock.exclusiveOwner.locked = 0 := by
  by_contra hx
  have := (exclusive_alone h.slots h.counts hx).2 t
  omega

theorem Inv.nestedShared (h : s.Inv) (hp : (s.pc t).sharedSlot = none)
    (hi : i ≤ s.lock.ownerTableSize) (hw : (s.lock.slot i).thread = some t)
    (hns : (s.lock.slot i).locked - 1 ≠ 0) :
    Inv { s with
      lock := s.lock.setSlot i ⟨(s.lock.slot i).locked - 1, some t⟩
      shared := update s.shared t (s.shared t - 1) } := by
  have hoc := RwLock.occupied_setSlot (o := ⟨(s.lock.slot i).locked - 1, some t⟩) hi
  have hc : Owner.counts (⟨(s.lock.slot i).locked - 1, some t⟩ : Owner T) = 1 := rfl
  have hc' : (s.lock.slot i).counts = 1 := by simp [Owner.counts, hw]
  refine ⟨⟨h.giveUpSlot hp hi hw rfl (by simp [hns]),
    ⟨?_, h.counts.sharedWaits, h.counts.exclusiveWaits, h.counts.one⟩,
    h.queues.congr rfl rfl rfl rfl, h.phase.congr rfl rfl fun _ => Iff.rfl, h.demoting⟩, h.free⟩
  show s.lock.heldCount + s.lock.sharedWaiterCount =
    (s.lock.setSlot i ⟨(s.lock.slot i).locked - 1, some t⟩).occupied + s.lock.exclusiveSlot
  have := h.counts.held
  omega

theorem Inv.lastShared (h : s.Inv) (hp : (s.pc t).sharedSlot = none)
    (hi : i ≤ s.lock.ownerTableSize) (hw : (s.lock.slot i).thread = some t)
    (hls : (s.lock.slot i).locked - 1 = 0) (hx : s.lock.exclusiveOwner.locked = 0) :
    Core { s with
      lock := { s.lock.setSlot i ⟨0, none⟩ with heldCount := s.lock.heldCount - 1 }
      shared := update s.shared t (s.shared t - 1) } := by
  have hoc := RwLock.occupied_setSlot (o := ⟨0, none⟩) hi
  have hc : Owner.counts (⟨0, none⟩ : Owner T) = 0 := rfl
  have hc' : (s.lock.slot i).counts = 1 := by simp [Owner.counts, hw]
  refine ⟨(h.giveUpSlot (o := ⟨0, none⟩) hp hi hw hls.symm rfl).congr rfl rfl,
    ⟨?_, h.counts.sharedWaits, h.counts.exclusiveWaits, fun h0 => absurd hx h0⟩,
    h.queues.congr rfl rfl rfl rfl, h.phase.congr rfl rfl fun _ => Iff.rfl, h.demoting⟩
  show s.lock.heldCount - 1 + s.lock.sharedWaiterCount =
    (s.lock.setSlot i ⟨0, none⟩).occupied + s.lock.exclusiveSlot
  have := h.counts.held
  have := h.toCore.held_pos hp hi hw hx
  omega

/-- A release that lets the shared waiters through if there are any. -/
def lastRelease (s : RwSystem T) (t : T) : Prop :=
  s.lock.heldCount = 1 ∧
    if s.lock.exclusiveOwner.thread = some t then s.lock.exclusiveOwner.locked = 1
    else s.lock.exclusiveWaiterCount = 0 ∧ ∃ i, s.lock.ownedSlot t = some i ∧ (s.lock.slot i).locked = 1

theorem Inv.release (h : s.Inv) (hp : s.pc t = .idle) (hholds : 0 < s.exclusive t + s.shared t)
    (hft : s.lastRelease t → s.lock.Fits)
    (hr : s.lock.release t = some r) :
    (({ s.giveUp t with lock := r.1 }.gainAll r.2.shared).wake r.2.exclusive).Inv := by
  have hq : (s.pc t).Quiet := hp ▸ Pc.quiet_idle
  simp only [RwLock.release] at hr
  by_cases hw : s.lock.exclusiveOwner.thread = some t
  · obtain ⟨hor, hpos, -⟩ := h.phase.of_owner hw hq.ne_woken
    have hlk : s.lock.exclusiveOwner.locked = s.exclusive t := by rw [hor]
    simp only [giveUp, if_pos hw]
    rw [if_pos hw] at hr
    split at hr
    · next hns =>
        cases hr
        exact h.nestedExclusive hq hw hns
    · next hls =>
        refine Core.passOver
          (s := { s with lock := { s.lock with exclusiveOwner := ⟨0, none⟩ }, exclusive := _ })
          (h.lastExclusive hp hw (not_not.1 hls)) rfl (fun _ _ => hft ⟨?_, ?_⟩) hr
        · exact h.counts.one (by omega)
        · rw [if_pos hw]
          omega
  · have hsh : 0 < s.shared t := by
      by_contra hne
      exact hw (h.phase.owner_of_pos (by omega))
    have hx := h.not_exclusive hsh
    simp only [giveUp, if_neg hw]
    rw [if_neg hw] at hr
    split at hr
    · simp at hr
    · next i hst =>
        obtain ⟨hi, hsl⟩ := RwLock.ownedSlot_spec hst
        have hsp := h.slots.pos i hi (by simp [hsl])
        split at hr
        · next hns =>
            cases hr
            exact h.nestedShared hq.sharedSlot hi hsl hns
        · next hls =>
            have hls := not_not.1 hls
            have hh := h.toCore.held_pos hq.sharedSlot hi hsl hx
            refine Core.passOver (s := { s with lock := s.lock.setSlot i ⟨0, none⟩, shared := _ })
              (h.lastShared hq.sharedSlot hi hsl hls hx) hx
              (fun hle hc => hft ⟨?_, ?_⟩) hr
            · have : s.lock.heldCount ≤ 1 := hle
              omega
            · rw [if_neg hw]
              exact ⟨hc.resolve_left Bool.false_ne_true, i, hst, by omega⟩

/-! ## Demotion -/

theorem Inv.demote (h : s.Inv) (hq : (s.pc t).Quiet) (hholds : 0 < s.exclusive t)
    (hsl : s.lock.findFree = some i) (hft : s.lock.Fits) {r : RwLock T × List T}
    (hr : s.lock.demote t i = some r) :
    (RwSystem.gainAll
      { lock := r.1
        pc := update s.pc t .idle
        exclusive := update s.exclusive t 0
        shared := update s.shared t (s.shared t + s.exclusive t) } r.2).Inv := by
  obtain ⟨hi, hfr⟩ := RwLock.findFree_spec hsl
  have how := h.phase.owner_of_pos hholds
  obtain ⟨hor, -, he, hw, hother⟩ := h.phase.of_owner how hq.ne_woken
  have hlk : s.lock.exclusiveOwner.locked = s.exclusive t := by rw [hor]
  have hne : s.lock.exclusiveOwner.locked ≠ 0 := by omega
  have hon := h.counts.one hne
  have hcr : Core
      { lock := { s.lock.setSlot i ⟨s.lock.exclusiveOwner.locked, some t⟩ with
          exclusiveOwner := ⟨0, none⟩ }
        pc := update s.pc t .idle
        exclusive := update s.exclusive t 0
        shared := update s.shared t (s.shared t + s.exclusive t) } := by
    have hoc := RwLock.occupied_setSlot (o := ⟨s.lock.exclusiveOwner.locked, some t⟩) hi
    have hc : Owner.counts (⟨s.lock.exclusiveOwner.locked, some t⟩ : Owner T) = 1 := rfl
    have hc' : (s.lock.slot i).counts = 0 := by rw [Owner.counts, if_pos hfr]
    have hss := h.slots.write (n := s.shared t + s.exclusive t)
      (o := ⟨s.lock.exclusiveOwner.locked, some t⟩) (q := .idle) hi (.inl hfr)
      (.inr ⟨rfl, Nat.pos_of_ne_zero hne⟩) hq.sharedSlot (.inl rfl)
      (by simp [Owner.share, hfr, hlk, Pc.quiet_idle.waitsShared])
    refine ⟨hss.congr rfl rfl, h.counts.move ?_ ?_ ?_ fun h0 => absurd rfl h0,
      (h.queues.move hq.not_blocked rfl).congr rfl rfl rfl rfl, .free rfl he ?_ ?_,
      demoting_update h.demoting ?_ False.elim⟩
    · show s.lock.heldCount + s.lock.sharedWaiterCount =
        (s.lock.setSlot i ⟨s.lock.exclusiveOwner.locked, some t⟩).occupied + 0
      have hh := h.counts.held
      rw [RwLock.exclusiveSlot, if_neg hne] at hh
      omega
    · rw [hq.waitsShared]
      rfl
    · rw [hq.waitsExclusive]
      rfl
    · exact fun u => (woken_update_iff hq.ne_woken Pc.noConfusion u).not.2 (hw u)
    · intro u
      by_cases hut : u = t
      · subst hut
        exact update_self ..
      · exact (update_of_ne hut ..).trans (hother u hut)
    · intro u hu
      exact (update_of_ne hu ..).ge
  simp only [RwLock.demote] at hr
  split at hr
  · next h0 =>
      cases hr
      refine ⟨hcr, fun hh => ?_⟩
      have : s.lock.heldCount = 0 := hh
      omega
  · next hwt =>
      exact hcr.wakeShared rfl (exclusive_alone h.slots h.counts hne).1 hwt hft hr

end RwSystem

end Boron.Ex
