import Boron.Lib.Run
import Boron.Ex.RwLockRelease

/-! # Exclusion

In every reachable state an exclusive owner is alone, the lock counts the slots it has granted and the
threads that wait for it, and a free lock has no waiters. The count of the semaphore is 16 bits wide:
the threads that wait are miscounted after a step that lets more shared waiters through than it can
count, and only then. -/

namespace Boron.Ex

open Function List Option

variable {T : Type} [DecidableEq T]

namespace Pc

def isAboutExclusive (p : Pc) : Bool := p = .aboutExclusive

def isBlockedExclusive (p : Pc) : Bool := p = .blockedExclusive

def isAboutShared : Pc → Bool
  | .aboutShared _ => true
  | _ => false

def isBlockedShared : Pc → Bool
  | .blockedShared _ => true
  | _ => false

end Pc

namespace RwSystem

variable [Fintype T] {s : RwSystem T} {t : T} {i : Nat}

/-! ## The property -/

/-- The threads in some state. -/
def threads (s : RwSystem T) (p : Pc → Bool) : Finset T := Finset.univ.filter fun t => p (s.pc t)

/-- The lock was granted to the thread exclusively, its write to `ExclusiveOwner.OwnerThread` still
    being to come or not. -/
def holdsExclusive (s : RwSystem T) (t : T) : Prop := 0 < s.exclusive t ∨ s.pc t = .woken

def holds (s : RwSystem T) (t : T) : Prop := s.holdsExclusive t ∨ 0 < s.shared t

/-- The owner slots granted: the exclusive one, those claimed by threads that do not wait, and one for
    each token a shared waiter will find. -/
def grantedSlots (s : RwSystem T) : Nat :=
  s.lock.exclusiveSlot + (ownedSlots s.lock \ waitingSlots s.lock s.pc).card + s.lock.semaphoreCount

/-- `1` if an exclusive waiter will find the event signaled. -/
def eventToken (s : RwSystem T) : Nat := if s.lock.eventSignaled then 1 else 0

/-- The threads blocked or about to block: those before the wait, less one for each token that will let
    one of them through at once. -/
def waiting (s : RwSystem T) : Nat :=
  (s.threads Pc.isBlockedExclusive).card + ((s.threads Pc.isAboutExclusive).card - s.eventToken) +
    ((s.threads Pc.isBlockedShared).card +
      ((s.threads Pc.isAboutShared).card - s.lock.semaphoreCount))

/-- What the lock promises. -/
structure Sound (s : RwSystem T) : Prop where
  exclusion : ∀ t u, s.holdsExclusive t → u ≠ t → ¬ s.holds u
  held : s.lock.heldCount = s.grantedSlots
  waiters : s.lock.exclusiveWaiterCount + s.lock.sharedWaiterCount = s.waiting
  tokens : s.eventToken ≤ (s.threads Pc.isAboutExclusive).card ∧
    s.lock.semaphoreCount ≤ (s.threads Pc.isAboutShared).card
  free : s.lock.heldCount = 0 → s.lock.exclusiveWaiterCount = 0 ∧ s.lock.sharedWaiterCount = 0

/-! ## The invariant implies it -/

omit [DecidableEq T] in
theorem sum_waitsExclusive (s : RwSystem T) : ∑ t, (s.pc t).waitsExclusive =
    (s.threads Pc.isBlockedExclusive).card + (s.threads Pc.isAboutExclusive).card := by
  rw [threads, threads, Finset.card_filter, Finset.card_filter, ← Finset.sum_add_distrib]
  refine Finset.sum_congr rfl fun t _ => ?_
  cases s.pc t <;> rfl

omit [DecidableEq T] in
theorem sum_waitsShared (s : RwSystem T) : ∑ t, (s.pc t).waitsShared =
    (s.threads Pc.isBlockedShared).card + (s.threads Pc.isAboutShared).card := by
  rw [threads, threads, Finset.card_filter, Finset.card_filter, ← Finset.sum_add_distrib]
  refine Finset.sum_congr rfl fun t _ => ?_
  cases s.pc t <;> rfl

theorem Inv.no_blockedExclusive (h : s.Inv) (he : s.eventToken ≠ 0) :
    (s.threads Pc.isBlockedExclusive).card = 0 := by
  rw [Finset.card_eq_zero, threads, Finset.filter_eq_empty_iff]
  intro t _ ht
  have hem := h.queues.event_idle (by
    by_contra hne
    exact he (if_neg hne))
  have hme := (h.queues.event_mem t).2 (by simpa [Pc.isBlockedExclusive] using ht)
  simp [hem] at hme

theorem Inv.no_blockedShared (h : s.Inv) (hc : s.lock.semaphoreCount ≠ 0) :
    (s.threads Pc.isBlockedShared).card = 0 := by
  rw [Finset.card_eq_zero, threads, Finset.filter_eq_empty_iff]
  intro t _ ht
  have he := h.queues.semaphore_idle hc
  have hb : ∃ i, s.pc t = .blockedShared i := by
    cases hp : s.pc t <;> simp [hp, Pc.isBlockedShared] at ht ⊢
  have hme := (h.queues.semaphore_mem t).2 hb
  simp [he] at hme

theorem Inv.granted (h : s.Inv) : s.lock.heldCount = s.grantedSlots := by
  have hh := h.counts.held
  have hw := h.counts.sharedWaits
  rw [← h.slots.card_waitingSlots] at hw
  have hle := Finset.card_le_card h.slots.waiting_subset
  have hsd := Finset.card_sdiff_of_subset h.slots.waiting_subset
  rw [card_ownedSlots] at hle hsd
  rw [grantedSlots]
  omega

/-- Whoever was granted the lock exclusively occupies its slot, and is the only one. -/
theorem Inv.owner (h : s.Inv) (ht : s.holdsExclusive t) : s.lock.exclusiveOwner.locked ≠ 0 ∧
    ∀ u, u ≠ t → ¬ s.holdsExclusive u := by
  have hnt : ∀ u, s.exclusive u = 0 → s.pc u ≠ .woken → ¬ s.holdsExclusive u := by
    rintro u hu hw (hu' | hw')
    · omega
    · exact hw hw'
  cases h.phase with
  | free _ _ h3 h4 => exact absurd ht (hnt t (h4 t) (h3 t))
  | offered _ _ h3 h4 => exact absurd ht (hnt t (h4 t) (h3 t))
  | woken v h1 _ _ _ h5 h6 =>
    obtain rfl : t = v := by
      by_contra hne
      exact hnt t (h6 t) (h5 t hne) ht
    exact ⟨by omega, fun u hu => hnt u (h6 u) (h5 u hu)⟩
  | owned v h1 h2 _ h4 h5 =>
    obtain rfl : t = v := by
      by_contra hne
      exact hnt t (h5 t hne) (h4 t) ht
    refine ⟨?_, fun u hu => hnt u (h5 u hu) (h4 u)⟩
    rw [h1]
    exact Nat.pos_iff_ne_zero.1 h2

theorem Inv.sound (h : s.Inv) : s.Sound := by
  have hS := h.counts.sharedWaits
  have hX : ∑ t, (s.pc t).waitsExclusive = s.lock.exclusiveWaiterCount + s.eventToken :=
    h.counts.exclusiveWaits
  rw [sum_waitsShared] at hS
  rw [sum_waitsExclusive] at hX
  have hbl := h.no_blockedExclusive
  have hb := h.no_blockedShared
  refine ⟨fun t u ht hu => ?_, h.granted, ?_, ⟨by omega, by omega⟩, fun h0 => (h.free h0).symm⟩
  · obtain ⟨hx, hon⟩ := h.owner ht
    rintro (he | hh)
    · exact hon u hu he
    · have := (exclusive_alone h.slots h.counts hx).2 u
      omega
  · rw [waiting]
    omega

/-! ## Every reachable state -/

theorem inv_init : (init : RwSystem T).Inv where
  slots := ⟨fun _ _ h => absurd rfl h, fun _ _ h => by simp [init, Pc.sharedSlot] at h, fun _ => rfl⟩
  counts := ⟨rfl, by simp [init, exInitializeRwLock, Pc.waitsShared, Pc.sharedSlot],
    by simp [init, exInitializeRwLock, Pc.waitsExclusive], fun h => absurd rfl h⟩
  queues := ⟨fun _ => by simp [init, exInitializeRwLock], nodup_nil, fun _ => rfl,
    fun _ => by simp [init, exInitializeRwLock], nodup_nil, fun _ => rfl⟩
  phase := .free rfl rfl (fun _ => Pc.noConfusion) fun _ => rfl
  demoting := fun _ h => h.elim
  free := fun _ => ⟨rfl, rfl⟩

/-- The semaphore can count the shared waiters that a step lets through. -/
def WakesFit (s : RwSystem T) : RwAction T → Prop
  | .release t => s.lastRelease t → s.lock.Fits
  | .demote _ => s.lock.findFree ≠ none → s.lock.Fits
  | .retry t => s.pc t = .again .demote → s.lock.findFree ≠ none → s.lock.Fits
  | _ => True

variable {s' : RwSystem T}

theorem Inv.round (h : s.Inv) (hp : (s.pc t).Quiet) {call : Call} (hd : call = .demote → 0 < s.exclusive t)
    (hft : call = .demote → s.lock.findFree ≠ none → s.lock.Fits)
    (hrn : s.round t call = some s') : s'.Inv := by
  cases call with
  | acquireShared db cs =>
    cases hrn
    exact h.acquireShared hp db cs
  | demote =>
    simp only [RwSystem.round] at hrn
    split at hrn
    · cases hrn
      exact h.quiet hp (quiet_growing _ _) fun _ => hd rfl
    · next i hsl =>
        obtain ⟨r, hr, rfl⟩ := map_eq_some_iff.1 hrn
        exact h.demote hp (hd rfl) hsl (hft rfl (by simp [hsl])) hr

/-- **One step.** -/
theorem Inv.step (h : s.Inv) {a : RwAction T} (hft : s.WakesFit a) (hst : s.step a = some s') : s'.Inv := by
  cases a with
  | acquireExclusive t db =>
    simp only [RwSystem.step] at hst
    split at hst
    · next hp =>
        cases hst
        exact h.acquireExclusive (hp ▸ Pc.quiet_idle) _ _
    · simp at hst
  | acquireShared t db cs =>
    simp only [RwSystem.step] at hst
    split at hst
    · next hp => exact h.round (hp ▸ Pc.quiet_idle) Call.noConfusion Call.noConfusion hst
    · simp at hst
  | demote t =>
    simp only [RwSystem.step] at hst
    split at hst
    · next hp =>
        exact h.round (hp.1 ▸ Pc.quiet_idle) (fun _ => hp.2) (fun _ => hft) hst
    · simp at hst
  | release t =>
    simp only [RwSystem.step] at hst
    split at hst
    · next hp =>
        obtain ⟨r, hr, rfl⟩ := map_eq_some_iff.1 hst
        exact h.release hp.1 hp.2 hft hr
    · simp at hst
  | grow t =>
    simp only [RwSystem.step] at hst
    split at hst
    · next os call hp =>
        cases hst
        refine (h.grow os).quiet (hp ▸ quiet_growing _ _) (quiet_again call) fun hd => ?_
        refine h.demoting t ?_
        rw [hp]
        cases call with
        | acquireShared _ _ => exact hd.elim
        | demote => trivial
    · simp at hst
  | retry t =>
    simp only [RwSystem.step] at hst
    split at hst
    · next call hp =>
        refine h.round (hp ▸ quiet_again call) (fun hcl => h.demoting t ?_)
          (fun hcl => hft (hcl ▸ hp)) hst
        rw [hp, hcl]
        trivial
    · simp at hst
  | wait t =>
    simp only [RwSystem.step] at hst
    split at hst
    · next hp =>
        split at hst
        · next he =>
            cases hst
            exact h.consumeEvent hp he
        · next he =>
            cases hst
            exact h.blockEvent hp (Bool.eq_false_iff.2 he)
    · next i hp =>
        split at hst
        · next hc =>
            cases hst
            exact h.consumeToken hp hc
        · next hc =>
            cases hst
            exact h.blockSemaphore hp (not_not.1 hc)
    · simp at hst
  | timeout t =>
    simp only [RwSystem.step] at hst
    split at hst
    · next hp =>
        cases hst
        exact h.leaveEvent hp
    · next i hp =>
        cases hst
        exact h.leaveSemaphore hp
    · simp at hst
  | resume t =>
    simp only [RwSystem.step] at hst
    split at hst
    · next hp =>
        cases hst
        exact h.resume hp
    · simp at hst

theorem inv_of_reaches (h : Reaches step WakesFit init s) : s.Inv :=
  h.invariant (I := Inv) inv_init fun _ _ _ hI hC hst => hI.step hC hst

/-- **Exclusion.** In every reachable state, if no step let more shared waiters through than the
    semaphore can count. -/
theorem rwLock_excludes (h : Reaches step WakesFit init s) : s.Sound :=
  (inv_of_reaches h).sound

/-- An executable test for `WakesFit`. -/
def fewWait (s : RwSystem T) (_ : RwAction T) : Bool := s.lock.sharedWaiterCount < 65536

omit [Fintype T] in
theorem wakesFit_of_fewWait (s : RwSystem T) (a : RwAction T) (h : s.fewWait a = true) :
    s.WakesFit a := by
  have hft : s.lock.Fits := .inl (by simpa [fewWait] using h)
  cases a with
  | release t => exact fun _ => hft
  | demote t => exact fun _ => hft
  | retry t => exact fun _ _ => hft
  | _ => trivial

/-- A writer, behind it a reader that blocks and another writer that does not get to its wait; the
    first writer demotes, and the lock goes on to the second when both readers are gone. -/
def sampleActions : List (RwAction (Fin 3)) :=
  [.acquireExclusive 0 false, .acquireExclusive 0 false, .acquireShared 1 false false, .wait 1,
    .acquireExclusive 2 false, .demote 0, .grow 0, .retry 0, .release 0, .release 1, .release 0,
    .wait 2]

theorem rwLock_excludes_sample :
    ∃ s : RwSystem (Fin 3), s.pc 2 = .woken ∧ s.lock.heldCount = 1 ∧ s.Sound := by
  obtain ⟨s, hrn, hs⟩ : ∃ s, runChecked step fewWait sampleActions init = some s ∧
      (decide (s.pc 2 = .woken ∧ s.lock.heldCount = 1)) = true :=
    (Option.any_eq_true _ _).1 (by decide +kernel)
  obtain ⟨hp, hh⟩ := of_decide_eq_true hs
  exact ⟨s, hp, hh, rwLock_excludes (Reaches.of_runChecked wakesFit_of_fewWait hrn)⟩

/-! ## Nobody sleeps for nobody -/

/-- The thread has been let through, but has not returned from its wait yet. -/
def LetThrough (s : RwSystem T) (t : T) : Prop :=
  (s.eventToken ≠ 0 ∧ (s.pc t).isAboutExclusive = true) ∨
    (s.lock.semaphoreCount ≠ 0 ∧ (s.pc t).isAboutShared = true)

/-- A slot that no waiter claimed is of a thread that holds the lock. -/
theorem Inv.shared_of_slot (h : s.Inv) (hi : i ∈ ownedSlots s.lock)
    (hw : i ∉ waitingSlots s.lock s.pc) : ∃ u, 0 < s.shared u := by
  obtain ⟨hr, hs⟩ := Finset.mem_filter.1 hi
  obtain ⟨u, hu⟩ := Option.ne_none_iff_exists'.1 hs
  have hle := Nat.lt_succ_iff.1 (Finset.mem_range.1 hr)
  have hpos := h.slots.pos i hle hs
  have ht := h.slots.total u
  have hsi := RwLock.total_setSlot (o := ⟨0, none⟩) u hle
  refine ⟨u, ?_⟩
  cases hp : (s.pc u).sharedSlot with
  | none =>
    simp [Pc.waitsShared, hp, Owner.share, hu] at ht hsi
    omega
  | some j =>
    have hij : j ≠ i := by
      rintro rfl
      exact hw (Finset.mem_filter.2 ⟨hr, u, hp⟩)
    obtain ⟨hj, hsl⟩ := h.slots.waits u j hp
    -- its own slot counts beside the one it waits for
    have hsj := RwLock.total_setSlot (l := s.lock.setSlot i ⟨0, none⟩) (o := ⟨0, none⟩) u hj
    rw [Pc.waitsShared_of_slot hp] at ht
    simp [RwLock.setSlot, hij, Owner.share, hu, hsl] at hsi hsj
    omega

/-- **No thread sleeps for nobody**: in every reachable state in which a thread is blocked on the lock,
some thread holds it, or was let through and is about to hold it. -/
theorem blocked_for_somebody (h : Reaches step WakesFit init s)
    (ht : (s.pc t).isBlockedExclusive = true ∨ (s.pc t).isBlockedShared = true) :
    ∃ u, s.holds u ∨ s.LetThrough u := by
  have hI := inv_of_reaches h
  obtain ⟨-, -, hwt, ⟨hte, hts⟩, hfree⟩ := hI.sound
  have hheld : s.lock.heldCount ≠ 0 := by
    intro h0
    obtain ⟨hx, hs⟩ := hfree h0
    rw [hx, hs, waiting] at hwt
    have hcard : ∀ {p : Pc → Bool}, p (s.pc t) = true → 0 < (s.threads p).card := fun hp =>
      Finset.card_pos.2 ⟨t, Finset.mem_filter.2 ⟨Finset.mem_univ t, hp⟩⟩
    rcases ht with ht | ht
    · have := hcard ht
      omega
    · have := hcard ht
      omega
  -- a thread in the state that a token lets through
  have hex : ∀ {p : Pc → Bool} {n : Nat}, n ≠ 0 → n ≤ (s.threads p).card → ∃ u, p (s.pc u) = true := by
    intro p n hn hle
    obtain ⟨u, hu⟩ := Finset.card_pos.1 ((Nat.pos_of_ne_zero hn).trans_le hle)
    exact ⟨u, (Finset.mem_filter.1 hu).2⟩
  rw [hI.granted, grantedSlots] at hheld
  by_cases hc : s.lock.semaphoreCount = 0
  · by_cases hx : s.lock.exclusiveSlot = 0
    · obtain ⟨i, hi⟩ := Finset.card_pos.1 (show 0 < (ownedSlots s.lock \ waitingSlots s.lock s.pc).card by
        omega)
      obtain ⟨u, hu⟩ := hI.shared_of_slot (Finset.mem_sdiff.1 hi).1 (Finset.mem_sdiff.1 hi).2
      exact ⟨u, .inl (.inr hu)⟩
    · cases hI.phase with
      | free h1 => simp [RwLock.exclusiveSlot, h1] at hx
      | offered _ h2 =>
        have htk : s.eventToken ≠ 0 := by simp [eventToken, h2]
        obtain ⟨u, hu⟩ := hex htk hte
        exact ⟨u, .inr (.inl ⟨htk, hu⟩)⟩
      | woken u _ _ _ h4 => exact ⟨u, .inl (.inl (.inr h4))⟩
      | owned u _ h2 => exact ⟨u, .inl (.inl (.inl h2))⟩
  · obtain ⟨u, hu⟩ := hex hc hts
    exact ⟨u, .inr (.inr ⟨hc, hu⟩)⟩

/-- The reader of the sample is blocked behind the writer. -/
theorem blocked_for_somebody_sample : ∃ s : RwSystem (Fin 3),
    (s.pc 1).isBlockedShared = true ∧ ∃ u, s.holds u ∨ s.LetThrough u := by
  obtain ⟨s, hrn, hs⟩ := (Option.any_eq_true (fun s : RwSystem (Fin 3) => (s.pc 1).isBlockedShared)
    (runChecked step fewWait (sampleActions.take 4) init)).1 (by decide +kernel)
  exact ⟨s, hs, blocked_for_somebody (.of_runChecked wakesFit_of_fewWait hrn) (.inr hs)⟩

/-! ## Where it fails -/

section

variable {m n : Nat}

/-- Behind the writer `0` stand `n` blocked readers, and the threads above `k` have done nothing. -/
structure Crowd (s : RwSystem (Fin (m + 1))) (n k : Nat) : Prop where
  reached : Reaches step WakesFit init s
  writer : s.pc 0 = .idle ∧ s.exclusive 0 = 1 ∧ s.lock.exclusiveOwner = ⟨1, some 0⟩
  exclusiveWaiters : s.lock.exclusiveWaiterCount = 0
  recorded : s.lock.sharedWaiterCount = n
  blocked : s.lock.semaphoreWaiters.length = n
  idle : ∀ t, k < t.val → s.pc t = .idle

variable {s : RwSystem (Fin (m + 1))} {t : Fin (m + 1)} {i : Nat}

variable {k : Nat}

theorem Crowd.no_tokens (h : Crowd s n k) : s.lock.semaphoreCount = 0 := by
  have hin := inv_of_reaches h.reached
  exact (exclusive_alone hin.slots hin.counts (by simp [h.writer.2.2])).1

/-- A reader behind the writer waits with a free slot. -/
theorem Crowd.round_claim (h : Crowd s n k) (ht : t ≠ 0) (hfr : s.lock.findFree = some i) :
    s.round t (.acquireShared false false) =
      some ({ s with lock := (s.lock.claimAndWait t i).1 }.setPc t (.aboutShared i)) := by
  have hon := (inv_of_reaches h.reached).counts.one (by simp [h.writer.2.2])
  simp [RwSystem.round, RwLock.acquireShared, hon, h.writer.2.2, ht.symm, hfr, settle,
    RwLock.claimAndWait]

theorem Crowd.round_grow (h : Crowd s n k) (ht : t ≠ 0) (hfr : s.lock.findFree = none) :
    s.round t (.acquireShared false false) =
      some (s.setPc t (.growing s.lock.ownerTableSize (.acquireShared false false))) := by
  have hon := (inv_of_reaches h.reached).counts.one (by simp [h.writer.2.2])
  simp [RwSystem.round, RwLock.acquireShared, hon, h.writer.2.2, ht.symm, hfr, settle]

theorem Crowd.block (h : Crowd s n (n + 1)) (ht : t.val = n + 1) {a : RwAction (Fin (m + 1))}
    (hst : s.step a = s.round t (.acquireShared false false)) (hC : s.WakesFit a)
    (hfr : s.lock.findFree = some i) : ∃ s', Crowd (m := m) s' (n + 1) (n + 1) := by
  have ht0 : t ≠ 0 := by
    rintro rfl
    simp at ht
  have hsm := h.no_tokens
  rw [h.round_claim ht0 hfr] at hst
  have hw : (({ s with lock := (s.lock.claimAndWait t i).1 }.setPc t (.aboutShared i)).step (.wait t)) =
      some ({ s with lock := { (s.lock.claimAndWait t i).1 with
        semaphoreWaiters := s.lock.semaphoreWaiters ++ [t] } }.setPc t (.blockedShared i)) := by
    simp [RwSystem.step, setPc, RwLock.claimAndWait, RwLock.setSlot, hsm]
  refine ⟨_, (h.reached.tail hC hst).tail (a := .wait t) trivial hw, ⟨?_, h.writer.2⟩, h.exclusiveWaiters, ?_, ?_,
    fun u hu => ?_⟩
  · exact (update_of_ne ht0.symm ..).trans h.writer.1
  · exact congrArg (· + 1) h.recorded
  · show (s.lock.semaphoreWaiters ++ [t]).length = n + 1
    rw [length_append, h.blocked]
    rfl
  · have hut : u ≠ t := by
      rintro rfl
      omega
    exact (update_of_ne hut ..).trans (h.idle u hu)

theorem Crowd.grow (h : Crowd s n n) (ht : t.val = n + 1) (hfr : s.lock.findFree = none) :
    ∃ s' i, Crowd (m := m) s' n (n + 1) ∧ s'.pc t = .again (.acquireShared false false) ∧
      s'.lock.findFree = some i := by
  have ht0 : t ≠ 0 := by
    rintro rfl
    simp at ht
  have ha : s.step (.acquireShared t false false) =
      some (s.setPc t (.growing s.lock.ownerTableSize (.acquireShared false false))) := by
    simp only [RwSystem.step, if_pos (h.idle t (by omega))]
    exact h.round_grow ht0 hfr
  have hgr : (s.setPc t (.growing s.lock.ownerTableSize (.acquireShared false false))).step
      (.grow t) = some ({ s with lock := s.lock.growTable s.lock.ownerTableSize }.setPc t
        (.again (.acquireShared false false))) := by
    simp [RwSystem.step, setPc]
  obtain ⟨i, hi⟩ := s.lock.findFree_growTable
  have hC : s.WakesFit (.acquireShared t false false) := trivial
  refine ⟨_, i, ⟨(h.reached.tail hC ha).tail (a := .grow t) trivial hgr,
    ⟨?_, h.writer.2.1, ?_⟩, ?_, ?_, ?_, fun u hu => ?_⟩, update_self .., hi⟩
  · exact (update_of_ne ht0.symm ..).trans h.writer.1
  · simpa [setPc, RwLock.growTable] using h.writer.2.2
  · simpa [setPc, RwLock.growTable] using h.exclusiveWaiters
  · simpa [setPc, RwLock.growTable] using h.recorded
  · simpa [setPc, RwLock.growTable] using h.blocked
  · have hut : u ≠ t := by
      rintro rfl
      omega
    exact (update_of_ne hut ..).trans (h.idle u (by omega))

/-- One more reader comes. -/
theorem Crowd.succ (h : Crowd s n n) (hn : n < m) : ∃ s', Crowd (m := m) s' (n + 1) (n + 1) := by
  obtain ⟨t, ht⟩ : ∃ t : Fin (m + 1), t.val = n + 1 := ⟨⟨n + 1, by omega⟩, rfl⟩
  cases hfr : s.lock.findFree with
  | some i =>
    have h' : Crowd s n (n + 1) := { h with idle := fun u hu => h.idle u (by omega) }
    have hst : s.step (.acquireShared t false false) = s.round t (.acquireShared false false) := by
      simp only [RwSystem.step, if_pos (h.idle t (by omega))]
    exact h'.block ht hst trivial hfr
  | none =>
    obtain ⟨s', i, h', hp, hfr'⟩ := h.grow ht hfr
    have hst : s'.step (.retry t) = s'.round t (.acquireShared false false) := by
      simp only [RwSystem.step, hp]
    exact h'.block ht hst (fun hdm => by simp [hp] at hdm) hfr'

theorem crowd (n : Nat) (hn : n ≤ m) : ∃ s, Crowd (m := m) s n n := by
  induction n with
  | zero =>
    let s₀ : RwSystem (Fin (m + 1)) := init
    let s₁ := { s₀ with lock := { s₀.lock with
      heldCount := 1, exclusiveOwner := ⟨1, some 0⟩ } }.gainExclusive 0
    have hst : s₀.step (.acquireExclusive 0 false) = some s₁ := rfl
    refine ⟨s₁, Reaches.single (a := .acquireExclusive 0 false) trivial hst,
      ⟨by simp [s₁, gainExclusive], by simp [s₁, s₀, gainExclusive, init], rfl⟩, rfl, rfl, rfl,
      fun u hu => ?_⟩
    have hu0 : u ≠ 0 := by
      rintro rfl
      simp at hu
    exact update_of_ne hu0 ..
  | succ n ih =>
    obtain ⟨s, hs⟩ := ih (by omega)
    exact hs.succ (by omega)

/-- The writer leaves, and the semaphore counts the readers modulo `65536`. -/
theorem Crowd.release (h : Crowd s n n) (hn : n % 65536 = 1) : ∃ s' u rest,
    s.step (.release 0) = some s' ∧ s.lock.semaphoreWaiters = u :: rest ∧
      s'.lock.exclusiveWaiterCount = 0 ∧ s'.lock.sharedWaiterCount = 0 ∧
      ∀ v ∈ rest, s'.pc v = s.pc v := by
  have hin := inv_of_reaches h.reached
  have hon := hin.counts.one (by simp [h.writer.2.2])
  cases hq : s.lock.semaphoreWaiters with
  | nil =>
    have := h.blocked
    rw [hq] at this
    simp only [length_nil] at this
    omega
  | cons u rest =>
    have hnt : u ∉ rest := by
      have := hin.queues.semaphore_nodup
      rw [hq] at this
      exact (nodup_cons.1 this).1
    have hrl : s.lock.release 0 = some ({ s.lock with
          exclusiveOwner := ⟨0, none⟩
          heldCount := n
          sharedWaiterCount := 0
          semaphoreCount := 0
          semaphoreWaiters := rest }, ⟨none, [u]⟩) := by
      have hpos : n ≠ 0 := by
        rintro rfl
        simp at hn
      simp [RwLock.release, RwLock.passOver, RwLock.wakeShared, RwLock.releaseSemaphore,
        RwLock.semaphoreTest, h.writer.2.2, hon, h.recorded, hpos, h.no_tokens, hn, hq]
    have hholds : s.pc 0 = .idle ∧ 0 < s.exclusive 0 + s.shared 0 :=
      ⟨h.writer.1, by rw [h.writer.2.1]; omega⟩
    have hst := congrArg (Option.map fun r : RwLock _ × RwLock.Wakes _ =>
      (({ s.giveUp 0 with lock := r.1 }.gainAll r.2.shared).wake r.2.exclusive)) hrl
    refine ⟨_, u, rest, (if_pos hholds).trans hst, rfl, h.exclusiveWaiters, rfl, fun v hv => ?_⟩
    have hvu : v ≠ u := fun hvu => hnt (hvu ▸ hv)
    simp [gainAll, gainShared, wake, giveUp, h.writer.2.2, hvu]

/-- `65537` readers wait for the writer; when it leaves, the count wraps to `1`, one of them is woken
    and the others stay blocked, though no waiter is recorded. -/
theorem rwLock_loses_waiters : ∃ s : RwSystem (Fin 65538), Reaches step (fun _ _ => True) init s ∧
    s.lock.exclusiveWaiterCount + s.lock.sharedWaiterCount = 0 ∧
    65536 ≤ (s.threads Pc.isBlockedShared).card ∧ ¬ s.Sound := by
  obtain ⟨s, h⟩ := crowd (m := 65537) 65537 le_rfl
  obtain ⟨s', u, rest, hst, hq, hX, hS, hp⟩ := h.release (by decide)
  have hin := inv_of_reaches h.reached
  have hlength : rest.length = 65536 := by
    have := h.blocked
    rw [hq, length_cons] at this
    omega
  have hnd : rest.Nodup := by
    have := hin.queues.semaphore_nodup
    rw [hq] at this
    exact (nodup_cons.1 this).2
  have hb : rest.toFinset ⊆ s'.threads Pc.isBlockedShared := by
    intro v hv
    rw [List.mem_toFinset] at hv
    obtain ⟨i, hi⟩ := (hin.queues.semaphore_mem v).1 (by simp [hq, hv])
    exact Finset.mem_filter.2 ⟨Finset.mem_univ v, by rw [hp v hv, hi]; rfl⟩
  have hc : 65536 ≤ (s'.threads Pc.isBlockedShared).card := by
    have := Finset.card_le_card hb
    rwa [toFinset_card_of_nodup hnd, hlength] at this
  refine ⟨s', (h.reached.mono fun _ _ _ => trivial).tail trivial hst, by omega, hc, fun hsn => ?_⟩
  have hw := hsn.waiters
  rw [waiting] at hw
  omega

end

end RwSystem

end Boron.Ex
