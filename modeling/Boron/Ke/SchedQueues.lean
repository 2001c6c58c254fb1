import Boron.Lib.Count
import Boron.Ke.Sched

/-! # The ready queues

`Queued L Q` reads the links of the ready queues as lists: `Q p k` are the threads in queue `k` of
processor `p`. `Core` adds what the queues say about the threads and, where asked for (`exact`), what
the masks and the counts of the processors say about the queues. The counts are compared up to a
number `w p` of threads that were queued without being counted.

Everything that `KiGetNextThread` does keeps `Core`, and takes at most one thread off the queues. -/

namespace Boron.Ke

open Function List

variable {P T : Type} [DecidableEq P] [DecidableEq T]

/-! ## Lists of the queues -/

section

variable {Q : P → Nat → List T} {p q : P} {k j : Nat} {l : List T} {t u : T}

/-- Replace one queue. -/
def put (Q : P → Nat → List T) (p : P) (k : Nat) (l : List T) : P → Nat → List T :=
  update Q p (update (Q p) k l)

omit [DecidableEq T] in
theorem put_self : put Q p k l p k = l := by
  rw [put, update_self, update_self]

omit [DecidableEq T] in
theorem put_of_ne (h : ¬ (q = p ∧ j = k)) : put Q p k l q j = Q q j := by
  unfold put
  by_cases hq : q = p
  · subst hq
    rw [update_self, update_of_ne fun hj => h ⟨rfl, hj⟩]
  · rw [update_of_ne hq]

omit [DecidableEq P] [DecidableEq T] in
/-- The thread is in some queue. -/
def Members (Q : P → Nat → List T) (t : T) : Prop := ∃ p k, t ∈ Q p k

omit [DecidableEq P] [DecidableEq T] in
/-- A thread is in at most one queue, and there once. -/
structure Apart (Q : P → Nat → List T) : Prop where
  nodup : ∀ p k, (Q p k).Nodup
  one : ∀ {p k q j t}, t ∈ Q p k → t ∈ Q q j → p = q ∧ k = j

omit [DecidableEq T] in
theorem mem_put_insert (hl : ∀ v, v ∈ l ↔ v = t ∨ v ∈ Q p k) :
    u ∈ put Q p k l q j ↔ u ∈ Q q j ∨ u = t ∧ q = p ∧ j = k := by
  by_cases h : q = p ∧ j = k
  · obtain ⟨rfl, rfl⟩ := h
    rw [put_self, hl]
    simp [or_comm]
  · rw [put_of_ne h]
    simp [h]

theorem Apart.mem_put_erase (ha : Apart Q) (ht : t ∈ Q p k) :
    u ∈ put Q p k ((Q p k).erase t) q j ↔ u ∈ Q q j ∧ u ≠ t := by
  by_cases h : q = p ∧ j = k
  · obtain ⟨rfl, rfl⟩ := h
    rw [put_self, (ha.nodup q j).mem_erase_iff, and_comm]
  · rw [put_of_ne h]
    refine ⟨fun hu => ⟨hu, ?_⟩, And.left⟩
    rintro rfl
    exact h (ha.one hu ht)

omit [DecidableEq T] in
theorem Apart.insert (ha : Apart Q) (ht : ¬ Members Q t) (hnd : l.Nodup)
    (hl : ∀ v, v ∈ l ↔ v = t ∨ v ∈ Q p k) : Apart (put Q p k l) := by
  constructor
  · intro q j
    by_cases h : q = p ∧ j = k
    · obtain ⟨rfl, rfl⟩ := h
      rwa [put_self]
    · rw [put_of_ne h]
      exact ha.nodup q j
  · intro q j q' j' u hu hu'
    rcases (mem_put_insert hl).1 hu with hm | ⟨rfl, rfl, rfl⟩
    · rcases (mem_put_insert hl).1 hu' with hm' | ⟨hut, -⟩
      · exact ha.one hm hm'
      · exact absurd ⟨q, j, hut ▸ hm⟩ ht
    · rcases (mem_put_insert hl).1 hu' with hm' | ⟨-, rfl, rfl⟩
      · exact absurd ⟨q', j', hm'⟩ ht
      · exact ⟨rfl, rfl⟩

theorem Apart.erase (ha : Apart Q) (ht : t ∈ Q p k) : Apart (put Q p k ((Q p k).erase t)) := by
  constructor
  · intro q j
    by_cases h : q = p ∧ j = k
    · obtain ⟨rfl, rfl⟩ := h
      rw [put_self]
      exact (ha.nodup q j).erase t
    · rw [put_of_ne h]
      exact ha.nodup q j
  · intro q j q' j' u hu hu'
    exact ha.one ((ha.mem_put_erase ht).1 hu).1 ((ha.mem_put_erase ht).1 hu').1

theorem Apart.members_erase (ha : Apart Q) (ht : t ∈ Q p k) :
    Members (put Q p k ((Q p k).erase t)) u ↔ Members Q u ∧ u ≠ t := by
  constructor
  · rintro ⟨q, j, hu⟩
    obtain ⟨hu, hne⟩ := (ha.mem_put_erase ht).1 hu
    exact ⟨⟨q, j, hu⟩, hne⟩
  · rintro ⟨⟨q, j, hu⟩, hne⟩
    exact ⟨q, j, (ha.mem_put_erase ht).2 ⟨hu, hne⟩⟩

omit [DecidableEq T] in
theorem members_insert (hl : ∀ v, v ∈ l ↔ v = t ∨ v ∈ Q p k) :
    Members (put Q p k l) u ↔ Members Q u ∨ u = t := by
  constructor
  · rintro ⟨q, j, hu⟩
    rcases (mem_put_insert hl).1 hu with hu | ⟨rfl, -⟩
    · exact .inl ⟨q, j, hu⟩
    · exact .inr rfl
  · rintro (⟨q, j, hu⟩ | rfl)
    · exact ⟨q, j, (mem_put_insert hl).2 (.inl hu)⟩
    · exact ⟨p, k, (mem_put_insert hl).2 (.inr ⟨rfl, rfl, rfl⟩)⟩

/-- The number of threads in the queues of a processor. -/
def total (Q : P → Nat → List T) (p : P) : Nat := ∑ k ∈ Finset.range priorityCount, (Q p k).length

omit [DecidableEq T] in
theorem total_put (hk : k < priorityCount) :
    total (put Q p k l) p + (Q p k).length = total Q p + l.length := by
  have h := sum_update (Finset.range priorityCount) List.length (Q p) (Finset.mem_range.2 hk) l
  simpa only [total, put, update_self] using h

omit [DecidableEq T] in
theorem total_put_of_ne (hq : q ≠ p) : total (put Q p k l) q = total Q q := by
  simp only [total, put, update_of_ne hq]

end

/-! ## Links of the queues -/

/-- The links of the queues are those of the lists `Q`. -/
structure Queued (L : Links (QueueNode P T)) (Q : P → Nat → List T) : Prop where
  ring : ∀ p k, L.Ring (.head p k) ((Q p k).map .entry)
  apart : Apart Q

namespace Queued

variable {L : Links (QueueNode P T)} {Q : P → Nat → List T} {p q : P} {k j : Nat} {t u : T}

omit [DecidableEq P] [DecidableEq T] in
theorem entry_mem_iff {l : List T} :
    QueueNode.entry t ∈ QueueNode.head p k :: l.map QueueNode.entry ↔ t ∈ l := by
  simp

omit [DecidableEq P] [DecidableEq T] in
theorem disjoint (hq : Queued L Q) (h : ¬ (q = p ∧ j = k)) :
    ∀ b ∈ QueueNode.head q j :: (Q q j).map .entry, b ∉ QueueNode.head p k :: (Q p k).map .entry := by
  intro b hb
  cases b with
  | head q' j' =>
    simp only [mem_cons, QueueNode.head.injEq, mem_map, reduceCtorEq, and_false,
      exists_false, or_false] at hb ⊢
    rw [hb.1, hb.2]
    exact h
  | entry u =>
    rw [entry_mem_iff] at hb ⊢
    exact fun hu => h (hq.apart.one hb hu)

theorem isEmpty_iff (hq : Queued L Q) : L.isEmpty (.head p k) = true ↔ Q p k = [] := by
  rw [(hq.ring p k).isEmpty_iff, map_eq_nil_iff]

theorem not_isEmpty_entry (hq : Queued L Q) (ht : Members Q t) : L.isEmpty (.entry t) = false := by
  obtain ⟨p, k, ht⟩ := ht
  exact decide_eq_false ((hq.ring p k).next_ne_self (mem_map_of_mem ht))

omit [DecidableEq P] [DecidableEq T] in
theorem next_head (hq : Queued L Q) {l : List T} (hl : Q p k = t :: l) :
    L.next (.head p k) = .entry t := by
  have hr := hq.ring p k
  rw [hl, map_cons] at hr
  exact hr.next_head

omit [DecidableEq T] in
/-- The rule for a change of one list by an operation that leaves the others alone. -/
private theorem of_change {L' : Links (QueueNode P T)} {l : List T}
    (hrn : L'.Ring (.head p k) (l.map .entry))
    (hfr : ∀ q j, ¬ (q = p ∧ j = k) → L'.Ring (.head q j) ((Q q j).map .entry))
    (ha : Apart (put Q p k l)) : Queued L' (put Q p k l) := by
  refine ⟨fun q j => ?_, ha⟩
  by_cases h : q = p ∧ j = k
  · obtain ⟨rfl, rfl⟩ := h
    rwa [put_self]
  · rw [put_of_ne h]
    exact hfr q j h

theorem insertTail (hq : Queued L Q) (ht : ¬ Members Q t) (p : P) (k : Nat) :
    Queued (L.insertTail (.head p k) (.entry t)) (put Q p k (Q p k ++ [t])) := by
  have hme : ∀ q j, QueueNode.entry t ∉ QueueNode.head q j :: (Q q j).map QueueNode.entry :=
    fun q j h => ht ⟨q, j, entry_mem_iff.1 h⟩
  refine of_change ?_ (fun q j h => ?_) ?_
  · rw [map_append]
    exact (hq.ring p k).insertTail (hme p k)
  · exact (hq.ring p k).insertTail_frame (hq.ring q j) (hq.disjoint h) (hme q j)
  · refine hq.apart.insert ht ?_ (by simp [or_comm])
    exact (hq.apart.nodup p k).append (nodup_singleton t) (disjoint_singleton.2 fun h => ht ⟨p, k, h⟩)

theorem insertHead (hq : Queued L Q) (ht : ¬ Members Q t) (p : P) (k : Nat) :
    Queued (L.insertHead (.head p k) (.entry t)) (put Q p k (t :: Q p k)) := by
  have hme : ∀ q j, QueueNode.entry t ∉ QueueNode.head q j :: (Q q j).map QueueNode.entry :=
    fun q j h => ht ⟨q, j, entry_mem_iff.1 h⟩
  refine of_change ?_ (fun q j h => ?_) ?_
  · exact (hq.ring p k).insertHead (hme p k)
  · exact (hq.ring p k).insertHead_frame (hq.ring q j) (hq.disjoint h) (hme q j)
  · exact hq.apart.insert ht (nodup_cons.2 ⟨fun h => ht ⟨p, k, h⟩, hq.apart.nodup p k⟩) (by simp)

theorem remove (hq : Queued L Q) (ht : t ∈ Q p k) :
    Queued (L.remove (.entry t)) (put Q p k ((Q p k).erase t)) := by
  have hme : QueueNode.entry t ∈ (Q p k).map (QueueNode.entry (P := P)) := mem_map_of_mem ht
  refine of_change ?_ (fun q j h => ?_) (hq.apart.erase ht)
  · rw [map_erase (fun _ _ h => QueueNode.entry.inj h)]
    exact (hq.ring p k).remove hme
  · exact (hq.ring p k).remove_frame (hq.ring q j) (hq.disjoint h) hme

/-- A thread that is in no queue can be linked to itself. -/
theorem initHead (hq : Queued L Q) (ht : ¬ Members Q t) : Queued (L.initHead (.entry t)) Q := by
  refine ⟨fun q j => (hq.ring q j).congr fun b hb => ?_, hq.apart⟩
  have hne : b ≠ .entry t := by
    rintro rfl
    exact ht ⟨q, j, entry_mem_iff.1 hb⟩
  simp only [Links.initHead, update_of_ne hne, and_self]

/-- A queued thread is moved to the head or to the tail of a queue, possibly its own. -/
theorem moveTo (hq : Queued L Q) (ht : t ∈ Q p k) (c : P) (i : Nat) (front : Prop) [Decidable front] :
    ∃ l, Queued (if front then (L.remove (.entry t)).insertHead (.head c i) (.entry t)
        else (L.remove (.entry t)).insertTail (.head c i) (.entry t))
      (put (put Q p k ((Q p k).erase t)) c i l) ∧
      (∀ v, v ∈ l ↔ v = t ∨ v ∈ put Q p k ((Q p k).erase t) c i) ∧
      l.length = (put Q p k ((Q p k).erase t) c i).length + 1 := by
  have hrm := hq.remove ht
  have hgn : ¬ Members (put Q p k ((Q p k).erase t)) t :=
    fun hm => ((hq.apart.members_erase ht).1 hm).2 rfl
  by_cases hf : front
  · refine ⟨t :: put Q p k ((Q p k).erase t) c i, ?_, by simp, by simp⟩
    rw [if_pos hf]
    exact hrm.insertHead hgn c i
  · refine ⟨put Q p k ((Q p k).erase t) c i ++ [t], ?_, by simp [or_comm], by simp⟩
    rw [if_neg hf]
    exact hrm.insertTail hgn c i

end Queued

/-! ## Masks and counts -/

theorem getLsbD_queueBit {j k : Nat} (hj : j < priorityCount) (hk : k < priorityCount) :
    (queueBit k).getLsbD j = decide (j = k) := by
  unfold priorityCount at hj hk
  rw [queueBit, Nat.mod_eq_of_lt hk]
  simp only [BitVec.getLsbD_shiftLeft, BitVec.getLsbD_one, hj]
  by_cases h : j = k
  · simp [h]
  · by_cases hlt : j < k
    · simp [h, hlt]
    · have hne : j - k ≠ 0 := by omega
      simp [h, hlt, hne]

theorem getLsbD_or_queueBit (m : BitVec 32) {j k : Nat} (hj : j < priorityCount)
    (hk : k < priorityCount) :
    (m ||| queueBit k).getLsbD j = if j = k then true else m.getLsbD j := by
  rw [BitVec.getLsbD_or, getLsbD_queueBit hj hk]
  by_cases h : j = k <;> simp [h]

theorem getLsbD_and_not_queueBit (m : BitVec 32) {j k : Nat} (hj : j < priorityCount)
    (hk : k < priorityCount) :
    (m &&& ~~~ queueBit k).getLsbD j = if j = k then false else m.getLsbD j := by
  have hj' : j < 32 := hj
  rw [BitVec.getLsbD_and, BitVec.getLsbD_not, getLsbD_queueBit hj hk]
  by_cases h : j = k <;> simp [h, hj']

theorem getLsbD_clear (m : BitVec 32) {j k : Nat} {b : Bool} (hj : j < priorityCount)
    (hk : k < priorityCount) (hb : b = false → m.getLsbD k = true) :
    (if b = true then m &&& ~~~ queueBit k else m).getLsbD j = if j = k then !b else m.getLsbD j := by
  cases b with
  | true => simpa using getLsbD_and_not_queueBit m hj hk
  | false =>
    by_cases h : j = k
    · simp [h, hb rfl]
    · simp [h]

/-- The mask of processor `q` after bit `k` of `p` has been cleared if `b` holds and bit `i` of `own`
has been set. -/
theorem getLsbD_clear_set (m : BitVec 32) {p own q : P} {i j k : Nat} {b c : Bool}
    (hj : j < priorityCount) (hk : k < priorityCount) (hi : i < priorityCount)
    (hst : q = p → m.getLsbD k = true) (hb : ¬ (p = own ∧ k = i) → b = !c) :
    (if q = own then (if q = p ∧ b = true then m &&& ~~~ queueBit k else m) ||| queueBit i
      else if q = p ∧ b = true then m &&& ~~~ queueBit k else m).getLsbD j =
    if q = own ∧ j = i then true else if q = p ∧ j = k then c else m.getLsbD j := by
  have hc : (if q = p ∧ b = true then m &&& ~~~ queueBit k else m).getLsbD j =
      if q = p ∧ j = k then !b else m.getLsbD j := by
    by_cases hp : q = p
    · simpa [hp] using getLsbD_clear m hj hk fun _ => hst hp
    · simp [hp]
  have hrs : ¬ (q = own ∧ j = i) → (if q = p ∧ j = k then !b else m.getLsbD j) =
      if q = p ∧ j = k then c else m.getLsbD j := by
    intro hne
    split
    · next h => rw [hb fun hh => hne ⟨h.1.trans hh.1, h.2.trans hh.2⟩, Bool.not_not]
    · rfl
  by_cases hq : q = own
  · rw [if_pos hq, getLsbD_or_queueBit _ hj hi, hc]
    by_cases hji : j = i
    · simp [hq, hji]
    · have hne : ¬ (q = own ∧ j = i) := fun h => hji h.2
      rw [if_neg hji, hrs hne, if_neg hne]
  · have hne : ¬ (q = own ∧ j = i) := fun h => hq h.1
    rw [if_neg hq, hc, hrs hne, if_neg hne]

omit [DecidableEq P] [DecidableEq T] in
/-- The masks `m` and the counts `n` of the processors describe the queues `Q`, but for `w` threads
that are not counted. -/
structure Books (m : P → BitVec 32) (n : P → Int) (w : P → Nat) (Q : P → Nat → List T) : Prop where
  mask : ∀ p k, k < priorityCount → ((m p).getLsbD k = true ↔ Q p k ≠ [])
  count : ∀ p, n p + w p = total Q p

namespace Books

variable {m m' : P → BitVec 32} {n n' : P → Int} {w w' : P → Nat} {Q : P → Nat → List T} {p : P}
  {k : Nat} {l : List T}

omit [DecidableEq T] in
theorem change (hb : Books m n w Q) (hk : k < priorityCount)
    (hms : ∀ q j, j < priorityCount → (m' q).getLsbD j =
      if q = p ∧ j = k then decide (l ≠ []) else (m q).getLsbD j)
    (hcount : ∀ q, n' q + w' q = n q + w q + if q = p then (l.length : Int) - (Q p k).length else 0) :
    Books m' n' w' (put Q p k l) := by
  constructor
  · intro q j hj
    rw [hms q j hj]
    by_cases h : q = p ∧ j = k
    · obtain ⟨rfl, rfl⟩ := h
      rw [if_pos ⟨rfl, rfl⟩, put_self, decide_eq_true_eq]
    · rw [if_neg h, put_of_ne h]
      exact hb.mask q j hj
  · intro q
    rw [hcount q]
    have hq := hb.count q
    by_cases h : q = p
    · subst h
      have htl := total_put (Q := Q) (p := q) (l := l) hk
      rw [if_pos rfl]
      omega
    · rw [if_neg h, total_put_of_ne h]
      omega

omit [DecidableEq T] in
theorem transfer {own : P} {i : Nat} {l' : List T} (hb : Books m n w Q) (hk : k < priorityCount)
    (hi : i < priorityCount) (hl : l.length + 1 = (Q p k).length)
    (hl' : l'.length = (put Q p k l own i).length + 1)
    (hms : ∀ q j, j < priorityCount → (m' q).getLsbD j =
      if q = own ∧ j = i then true
      else if q = p ∧ j = k then decide (l ≠ []) else (m q).getLsbD j)
    (hcount : ∀ q, n' q = n q + (if q = p then -1 else 0) + if q = own then 1 else 0) :
    Books m' n' w (put (put Q p k l) own i l') := by
  have hst : (m p).getLsbD k = true := (hb.mask p k hk).2 (by
    rintro hnil
    simp [hnil] at hl)
  have hbt : ∀ q j, j < priorityCount →
      (if q = p ∧ l = [] then m q &&& ~~~ queueBit k else m q).getLsbD j =
        if q = p ∧ j = k then decide (l ≠ []) else (m q).getLsbD j := by
    intro q j hj
    by_cases hq : q = p
    · subst hq
      have hc := getLsbD_clear (m q) (b := decide (l = [])) hj hk fun _ => hst
      simpa using hc
    · simp [hq]
  have hfs : Books (fun q => if q = p ∧ l = [] then m q &&& ~~~ queueBit k else m q)
      (fun q => n q + if q = p then -1 else 0) w (put Q p k l) := by
    refine hb.change hk hbt fun q => ?_
    split <;> omega
  refine hfs.change hi (fun q j hj => ?_) fun q => ?_
  · have hne : l' ≠ [] := by
      rintro rfl
      simp at hl'
    rw [hms q j hj, hbt q j hj]
    simp [hne]
  · rw [hcount, hl']
    push_cast
    split <;> split <;> omega

end Books

namespace SchedSystem

def masks (s : SchedSystem P T) (p : P) : BitVec 32 := (s.scheduler p).execQueueMask

def counts (s : SchedSystem P T) (p : P) : Int := (s.scheduler p).threadsOnQueueCount

section

variable (s : SchedSystem P T) (p q : P) (x : Scheduler T)

section

omit [DecidableEq T]

theorem masks_setScheduler :
    (s.setScheduler p x).masks q = if q = p then x.execQueueMask else s.masks q := by
  simp only [masks, setScheduler, update_apply]
  split <;> rfl

theorem counts_setScheduler :
    (s.setScheduler p x).counts q = if q = p then x.threadsOnQueueCount else s.counts q := by
  simp only [counts, setScheduler, update_apply]
  split <;> rfl

theorem current_setScheduler : ((s.setScheduler p x).scheduler q).currentThread =
      if q = p then x.currentThread else (s.scheduler q).currentThread := by
  simp only [setScheduler, update_apply]
  split <;> rfl

theorem next_setScheduler : ((s.setScheduler p x).scheduler q).nextThread =
      if q = p then x.nextThread else (s.scheduler q).nextThread := by
  simp only [setScheduler, update_apply]
  split <;> rfl

end

theorem clearMaskBitIfEmpty_eq (k : Nat) :
    s.clearMaskBitIfEmpty p k = s.setScheduler p { s.scheduler p with
      execQueueMask := if s.queues.isEmpty (.head p k) then s.masks p &&& ~~~ queueBit k
        else s.masks p } := by
  unfold clearMaskBitIfEmpty
  split
  · rfl
  · exact (congrArg (fun f => { s with scheduler := f }) (update_eq_self p s.scheduler)).symm

end

section

variable (s : SchedSystem P T) (p q : P) (k : Nat) (n : Int) (t : T) (x : SchedThread P)
  (L : Links (QueueNode P T))

omit [DecidableEq P] [DecidableEq T] in
@[simp] theorem masks_queues : SchedSystem.masks { s with queues := L } = s.masks := rfl
omit [DecidableEq P] [DecidableEq T] in
@[simp] theorem counts_queues : SchedSystem.counts { s with queues := L } = s.counts := rfl

omit [DecidableEq P] in
@[simp] theorem queues_setThread : (s.setThread t x).queues = s.queues := rfl
omit [DecidableEq P] in
@[simp] theorem masks_setThread : (s.setThread t x).masks = s.masks := rfl
omit [DecidableEq P] in
@[simp] theorem counts_setThread : (s.setThread t x).counts = s.counts := rfl
omit [DecidableEq P] in
@[simp] theorem thread_setThread :
    (s.setThread t x).thread = update s.thread t x := rfl

@[simp] theorem queues_insertTailQueue :
    (s.insertTailQueue p k t).queues = s.queues.insertTail (.head p k) (.entry t) := rfl
@[simp] theorem masks_insertTailQueue : (s.insertTailQueue p k t).masks = s.masks := rfl
@[simp] theorem counts_insertTailQueue : (s.insertTailQueue p k t).counts = s.counts := rfl
@[simp] theorem thread_insertTailQueue : (s.insertTailQueue p k t).thread = s.thread := rfl

omit [DecidableEq P] [DecidableEq T] in
@[simp] theorem queues_kiCheckOverloadedExecQueues :
    s.kiCheckOverloadedExecQueues.queues = s.queues := rfl
omit [DecidableEq P] [DecidableEq T] in
@[simp] theorem masks_kiCheckOverloadedExecQueues :
    s.kiCheckOverloadedExecQueues.masks = s.masks := rfl
omit [DecidableEq P] [DecidableEq T] in
@[simp] theorem counts_kiCheckOverloadedExecQueues :
    s.kiCheckOverloadedExecQueues.counts = s.counts := rfl
omit [DecidableEq P] [DecidableEq T] in
@[simp] theorem thread_kiCheckOverloadedExecQueues :
    s.kiCheckOverloadedExecQueues.thread = s.thread := rfl

omit [DecidableEq T] in
@[simp] theorem queues_setMaskBit : (s.setMaskBit p k).queues = s.queues := rfl
omit [DecidableEq T] in
@[simp] theorem thread_setMaskBit : (s.setMaskBit p k).thread = s.thread := rfl
omit [DecidableEq T] in
@[simp] theorem masks_setMaskBit :
    (s.setMaskBit p k).masks q = if q = p then s.masks q ||| queueBit k else s.masks q := by
  rw [setMaskBit, masks_setScheduler]
  split
  · next h => rw [h, masks]
  · rfl
omit [DecidableEq T] in
@[simp] theorem counts_setMaskBit : (s.setMaskBit p k).counts q = s.counts q := by
  rw [setMaskBit, counts_setScheduler]
  split
  · next h => rw [h, counts]
  · rfl

omit [DecidableEq T] in
@[simp] theorem queues_addToCount : (s.addToCount p n).queues = s.queues := rfl
omit [DecidableEq T] in
@[simp] theorem thread_addToCount : (s.addToCount p n).thread = s.thread := rfl
omit [DecidableEq T] in
@[simp] theorem masks_addToCount : (s.addToCount p n).masks q = s.masks q := by
  rw [addToCount, masks_setScheduler]
  split
  · next h => rw [h, masks]
  · rfl
omit [DecidableEq T] in
@[simp] theorem counts_addToCount :
    (s.addToCount p n).counts q = if q = p then s.counts q + n else s.counts q := by
  rw [addToCount, counts_setScheduler]
  split
  · next h => rw [h, counts]
  · rfl

@[simp] theorem queues_clearMaskBitIfEmpty : (s.clearMaskBitIfEmpty p k).queues = s.queues := by
  rw [clearMaskBitIfEmpty_eq, setScheduler]
@[simp] theorem thread_clearMaskBitIfEmpty : (s.clearMaskBitIfEmpty p k).thread = s.thread := by
  rw [clearMaskBitIfEmpty_eq, setScheduler]
@[simp] theorem masks_clearMaskBitIfEmpty :
    (s.clearMaskBitIfEmpty p k).masks q =
      if q = p ∧ s.queues.isEmpty (.head p k) = true then s.masks q &&& ~~~ queueBit k
      else s.masks q := by
  rw [clearMaskBitIfEmpty_eq, masks_setScheduler]
  by_cases h : q = p
  · subst h
    simp
  · simp [h]
@[simp] theorem counts_clearMaskBitIfEmpty : (s.clearMaskBitIfEmpty p k).counts q = s.counts q := by
  rw [clearMaskBitIfEmpty_eq, counts_setScheduler]
  split
  · next h => rw [h, counts]
  · rfl

end

/-! ## The invariant of the queues -/

/-- What the ready queues, the threads and the processors say about each other. -/
structure Core (exact : Bool) (w : P → Nat) (s : SchedSystem P T) (Q : P → Nat → List T) : Prop where
  queued : Queued s.queues Q
  priority : ∀ {p k t}, t ∈ Q p k → (s.thread t).priority = k
  resting : ∀ t, ¬ Members Q t → (s.thread t).priority = (s.thread t).basePriority
  bound : ∀ t, (s.thread t).priority < priorityCount ∧ (s.thread t).basePriority < priorityCount
  books : exact = true → Books s.masks s.counts w Q

/-- What a move of threads between the queues leaves alone. -/
structure Frame (s s' : SchedSystem P T) : Prop where
  global : s'.global = s.global
  deleteDpc : s'.deleteDpc = s.deleteDpc
  current : ∀ p, (s'.scheduler p).currentThread = (s.scheduler p).currentThread
  next : ∀ p, (s'.scheduler p).nextThread = (s.scheduler p).nextThread
  status : ∀ t, (s'.thread t).status = (s.thread t).status
  suspended : ∀ t, (s'.thread t).suspended = (s.thread t).suspended

omit [DecidableEq P] [DecidableEq T] in
theorem Frame.refl (s : SchedSystem P T) : Frame s s :=
  ⟨rfl, rfl, fun _ => rfl, fun _ => rfl, fun _ => rfl, fun _ => rfl⟩

omit [DecidableEq P] [DecidableEq T] in
theorem Frame.trans {s s' s'' : SchedSystem P T} (h : Frame s s') (h' : Frame s' s'') :
    Frame s s'' where
  global := h'.global.trans h.global
  deleteDpc := h'.deleteDpc.trans h.deleteDpc
  current p := (h'.current p).trans (h.current p)
  next p := (h'.next p).trans (h.next p)
  status t := (h'.status t).trans (h.status t)
  suspended t := (h'.suspended t).trans (h.suspended t)

variable {exact : Bool} {w : P → Nat} {s : SchedSystem P T} {Q : P → Nat → List T} {p c : P}
  {k : Nat} {t : T}

omit [DecidableEq P] [DecidableEq T] in
theorem Core.lt_of_mem (h : Core exact w s Q) (ht : t ∈ Q p k) : k < priorityCount :=
  h.priority ht ▸ (h.bound t).1

namespace Frame

variable (s : SchedSystem P T) (p : P) (k : Nat) (t : T)

omit [DecidableEq T] in
theorem setScheduler {x : Scheduler T} (hc : x.currentThread = (s.scheduler p).currentThread)
    (hn : x.nextThread = (s.scheduler p).nextThread) : Frame s (s.setScheduler p x) := by
  refine ⟨rfl, rfl, fun q => ?_, fun q => ?_, fun _ => rfl, fun _ => rfl⟩
  · rw [current_setScheduler]
    split
    · next h => rw [hc, h]
    · rfl
  · rw [next_setScheduler]
    split
    · next h => rw [hn, h]
    · rfl

omit [DecidableEq P] in
theorem setThread {x : SchedThread P} (hst : x.status = (s.thread t).status)
    (hsu : x.suspended = (s.thread t).suspended) : Frame s (s.setThread t x) := by
  refine ⟨rfl, rfl, fun _ => rfl, fun _ => rfl, fun u => ?_, fun u => ?_⟩
  · simp only [SchedSystem.setThread, update_apply]
    split
    · next h => rw [hst, h]
    · rfl
  · simp only [SchedSystem.setThread, update_apply]
    split
    · next h => rw [hsu, h]
    · rfl

omit [DecidableEq P] [DecidableEq T] in
theorem queues (L : Links (QueueNode P T)) : Frame s { s with queues := L } :=
  ⟨rfl, rfl, fun _ => rfl, fun _ => rfl, fun _ => rfl, fun _ => rfl⟩

omit [DecidableEq P] [DecidableEq T] in
theorem kiCheckOverloadedExecQueues : Frame s s.kiCheckOverloadedExecQueues :=
  ⟨rfl, rfl, fun _ => rfl, fun _ => rfl, fun _ => rfl, fun _ => rfl⟩

omit [DecidableEq T] in
theorem setMaskBit : Frame s (s.setMaskBit p k) := .setScheduler s p rfl rfl

omit [DecidableEq T] in
theorem addToCount (n : Int) : Frame s (s.addToCount p n) := .setScheduler s p rfl rfl

theorem clearMaskBitIfEmpty : Frame s (s.clearMaskBitIfEmpty p k) := by
  rw [clearMaskBitIfEmpty_eq]
  exact .setScheduler s p rfl rfl

theorem popThread : Frame s (s.popThread p k t) :=
  (((queues s _).trans (addToCount _ p (-1))).trans
    (kiCheckOverloadedExecQueues _)).trans ((clearMaskBitIfEmpty _ p k).trans (setThread _ t rfl rfl))

theorem moveThread (own : P) : Frame s (s.moveThread p own k t) :=
  (((queues s _).trans (queues _ _)).trans (clearMaskBitIfEmpty _ p k)).trans
    (((setMaskBit _ own k).trans (addToCount _ p (-1))).trans (addToCount _ own 1))

end Frame

/-! ## Taking a thread off a queue -/

theorem Core.popThread (h : Core exact w s Q) (ht : t ∈ Q p k) :
    Core exact w (s.popThread p k t) (put Q p k ((Q p k).erase t)) := by
  have hk := h.lt_of_mem ht
  have hq := h.queued.remove ht
  have hh : ∀ u, u ≠ t → (s.popThread p k t).thread u = s.thread u := by
    intro u hu
    simp [SchedSystem.popThread, hu]
  have hsl : ((s.popThread p k t).thread t).priority = (s.thread t).basePriority ∧
      ((s.popThread p k t).thread t).basePriority = (s.thread t).basePriority := by
    simp [SchedSystem.popThread]
  refine ⟨?_, fun {q j u} hu => ?_, fun u hu => ?_, fun u => ?_, fun he => ?_⟩
  · simpa [SchedSystem.popThread] using hq
  · obtain ⟨hu, hne⟩ := (h.queued.apart.mem_put_erase ht).1 hu
    rw [hh u hne]
    exact h.priority hu
  · by_cases hne : u = t
    · rw [hne, hsl.1, hsl.2]
    · rw [hh u hne]
      exact h.resting u fun hm => hu ((h.queued.apart.members_erase ht).2 ⟨hm, hne⟩)
  · by_cases hne : u = t
    · rw [hne, hsl.1, hsl.2]
      exact ⟨(h.bound t).2, (h.bound t).2⟩
    · rw [hh u hne]
      exact h.bound u
  · refine (h.books he).change hk (fun q j hj => ?_) fun q => ?_
    · have hem : (s.queues.remove (.entry t)).isEmpty (.head p k) = !decide ((Q p k).erase t ≠ []) := by
        rw [Bool.eq_iff_iff, hq.isEmpty_iff, put_self]
        simp
      have hst : (s.masks p).getLsbD k = true :=
        ((h.books he).mask p k hk).2 (ne_nil_of_mem ht)
      by_cases hp : q = p
      · subst hp
        simp only [SchedSystem.popThread, masks_setThread, masks_clearMaskBitIfEmpty, true_and,
          masks_kiCheckOverloadedExecQueues, masks_addToCount, masks_queues,
          queues_kiCheckOverloadedExecQueues, queues_addToCount]
        rw [getLsbD_clear _ hj hk fun _ => hst, hem, Bool.not_not]
      · simp [SchedSystem.popThread, hp]
    · have hln := length_erase_add_one ht
      by_cases hp : q = p
      · subst hp
        simp only [SchedSystem.popThread, counts_setThread, counts_clearMaskBitIfEmpty,
          counts_kiCheckOverloadedExecQueues, counts_addToCount, counts_queues, if_true]
        omega
      · simp [SchedSystem.popThread, hp]

/-! ## Putting a thread on a queue -/

theorem Core.insertTail {s' : SchedSystem P T} {w' : P → Nat} (h : Core exact w s Q)
    (ht : ¬ Members Q t) (hk : k < priorityCount)
    (hqs : s'.queues = s.queues.insertTail (.head p k) (.entry t))
    (hother : ∀ u, u ≠ t → (s'.thread u).priority = (s.thread u).priority ∧
      (s'.thread u).basePriority = (s.thread u).basePriority)
    (hsl : (s'.thread t).priority = k ∧ (s'.thread t).basePriority < priorityCount)
    (hms : ∀ q, s'.masks q = if q = p then s.masks q ||| queueBit k else s.masks q)
    (hc : ∀ q, s'.counts q + w' q = s.counts q + w q + if q = p then 1 else 0) :
    Core exact w' s' (put Q p k (Q p k ++ [t])) := by
  have hme : ∀ v, v ∈ Q p k ++ [t] ↔ v = t ∨ v ∈ Q p k := by simp [or_comm]
  refine ⟨?_, fun {q j u} hu => ?_, fun u hu => ?_, fun u => ?_, fun he => ?_⟩
  · rw [hqs]
    exact h.queued.insertTail ht p k
  · rcases (mem_put_insert hme).1 hu with hm | ⟨rfl, rfl, rfl⟩
    · have hne : u ≠ t := fun heq => ht ⟨q, j, heq ▸ hm⟩
      rw [(hother u hne).1]
      exact h.priority hm
    · exact hsl.1
  · have hne : u ≠ t := fun heq => hu ((members_insert hme).2 (.inr heq))
    rw [(hother u hne).1, (hother u hne).2]
    exact h.resting u fun hm => hu ((members_insert hme).2 (.inl hm))
  · by_cases hne : u = t
    · rw [hne, hsl.1]
      exact ⟨hk, hsl.2⟩
    · rw [(hother u hne).1, (hother u hne).2]
      exact h.bound u
  · refine (h.books he).change hk (fun q j hj => ?_) fun q => ?_
    · rw [hms]
      by_cases hq : q = p
      · simp [hq, getLsbD_or_queueBit _ hj hk]
      · simp [hq]
    · rw [hc]
      simp

/-! ## Moving a thread to another queue -/

theorem Core.moveThread {l : List T} (h : Core exact w s Q) (hl : Q p k = t :: l) (own : P) :
    ∃ Q', Core exact w (s.moveThread p own k t) Q' ∧ ∀ u, Members Q' u ↔ Members Q u := by
  have ht : t ∈ Q p k := by simp [hl]
  have hk := h.lt_of_mem ht
  have hrm : s.queues.removeHead (.head p k) = s.queues.remove (.entry t) := by
    have hr := h.queued.ring p k
    rw [hl] at hr
    exact hr.removeHead_eq
  have hrs : (Q p k).erase t = l := by simp [hl]
  have hb : ∀ u, Members (put Q p k l) u ↔ Members Q u ∧ u ≠ t := fun u =>
    hrs ▸ h.queued.apart.members_erase ht
  have hme : ∀ v, v ∈ put Q p k l own k ++ [t] ↔ v = t ∨ v ∈ put Q p k l own k := by
    simp [or_comm]
  have hkp : ∀ u, Members (put (put Q p k l) own k (put Q p k l own k ++ [t])) u ↔ Members Q u := by
    intro u
    rw [members_insert hme, hb]
    by_cases hut : u = t
    · simp [hut, show Members Q t from ⟨p, k, ht⟩]
    · simp [hut]
  have hq : Queued (s.queues.removeHead (.head p k)) (put Q p k l) := by
    rw [hrm, ← hrs]
    exact h.queued.remove ht
  have hq' := hq.insertTail (t := t) (fun hm => ((hb t).1 hm).2 rfl) own k
  refine ⟨_, ⟨?_, fun {q j u} hu => ?_, fun u hu => ?_, fun u => ?_, fun he => ?_⟩, hkp⟩
  · simpa [SchedSystem.moveThread] using hq'
  · simp only [SchedSystem.moveThread, thread_addToCount, thread_setMaskBit,
      thread_clearMaskBitIfEmpty, thread_insertTailQueue]
    rcases (mem_put_insert hme).1 hu with hu | ⟨rfl, -, rfl⟩
    · rw [← hrs] at hu
      exact h.priority ((h.queued.apart.mem_put_erase ht).1 hu).1
    · exact h.priority ht
  · simp only [SchedSystem.moveThread, thread_addToCount, thread_setMaskBit,
      thread_clearMaskBitIfEmpty, thread_insertTailQueue]
    exact h.resting u fun hm => hu ((hkp u).2 hm)
  · simp only [SchedSystem.moveThread, thread_addToCount, thread_setMaskBit,
      thread_clearMaskBitIfEmpty, thread_insertTailQueue]
    exact h.bound u
  · have hem : ((s.queues.removeHead (.head p k)).insertTail (.head own k)
        (.entry t)).isEmpty (.head p k) = true ↔ p ≠ own ∧ l = [] := by
      rw [hq'.isEmpty_iff]
      by_cases hp : p = own
      · subst hp
        simp [put_self]
      · rw [put_of_ne fun hh => hp hh.1, put_self]
        simp [hp]
    refine (h.books he).transfer hk hk (by rw [hl, length_cons]) (by simp) (fun q j hj => ?_)
      fun q => ?_
    · have hst : (s.masks p).getLsbD k = true := ((h.books he).mask p k hk).2 (by simp [hl])
      simp only [SchedSystem.moveThread, masks_addToCount, masks_setMaskBit,
        masks_clearMaskBitIfEmpty, masks_insertTailQueue, masks_queues, queues_insertTailQueue]
      refine getLsbD_clear_set _ hj hk hk (fun hqp => hqp ▸ hst) fun hne => ?_
      have hp : p ≠ own := by simpa using hne
      rw [Bool.eq_iff_iff, hem]
      simp [hp]
    · simp only [SchedSystem.moveThread, counts_addToCount, counts_setMaskBit,
        counts_clearMaskBitIfEmpty, counts_insertTailQueue, counts_queues]
      split <;> split <;> omega

/-! ## `KiGetNextThread` -/

/-- The result `r` of a search that started with the queues `Q`: the invariant holds with new queues,
and these have the same threads but for the one that was picked. -/
def Picks (exact : Bool) (w : P → Nat) (s : SchedSystem P T) (Q : P → Nat → List T)
    (r : SchedSystem P T × Option T) : Prop :=
  ∃ Q', Core exact w r.1 Q' ∧ Frame s r.1 ∧ (∀ u, Members Q' u ↔ Members Q u ∧ r.2 ≠ some u) ∧
    ∀ t, r.2 = some t → Members Q t

omit [DecidableEq P] [DecidableEq T] in
theorem Core.picks_none (h : Core exact w s Q) : Picks exact w s Q (s, none) :=
  ⟨Q, h, .refl s, by simp, by simp⟩

theorem Core.picks_popThread (h : Core exact w s Q) (ht : t ∈ Q p k) :
    Picks exact w s Q (s.popThread p k t, some t) := by
  refine ⟨_, h.popThread ht, .popThread s p k t, fun u => ?_, fun u hu => ?_⟩
  · rw [h.queued.apart.members_erase ht]
    simp [eq_comm]
  · cases hu
    exact ⟨p, k, ht⟩

omit [DecidableEq P] [DecidableEq T] in
/-- The rule for a search that goes on if it has found nothing. -/
theorem Picks.orElse {r : SchedSystem P T × Option T}
    {next : SchedSystem P T → SchedSystem P T × Option T} (hr : Picks exact w s Q r)
    (hnext : ∀ s' Q', Core exact w s' Q' → Picks exact w s' Q' (next s')) :
    Picks exact w s Q (SchedSystem.orElse r next) := by
  obtain ⟨s', o⟩ := r
  cases o with
  | some t => exact hr
  | none =>
    obtain ⟨Q', hc, hfr, hme, -⟩ := hr
    obtain ⟨Q'', hc', hfr', hme', hp⟩ := hnext s' Q' hc
    refine ⟨Q'', hc', hfr.trans hfr', fun u => ?_, fun t ht => ?_⟩
    · rw [hme', hme]
      simp [SchedSystem.orElse]
    · exact ((hme t).1 (hp t ht)).1

omit [DecidableEq P] [DecidableEq T] in
/-- The rule for a search after moves that take no thread. -/
theorem Picks.after {s' : SchedSystem P T} {Q' : P → Nat → List T} {r : SchedSystem P T × Option T}
    (hr : Picks exact w s' Q' r) (hfr : Frame s s') (hme : ∀ u, Members Q' u ↔ Members Q u) :
    Picks exact w s Q r := by
  obtain ⟨Q'', hc, hfr', hme', hp⟩ := hr
  refine ⟨Q'', hc, hfr.trans hfr', fun u => ?_, fun t ht => (hme t).1 (hp t ht)⟩
  rw [hme', hme]

theorem Core.popLoop (h : Core exact w s Q) (c p : P) (other : Bool) (ks : List Nat) :
    Picks exact w s Q (s.popLoop c p other ks) := by
  induction ks with
  | nil => exact h.picks_none
  | cons k ks ih =>
    simp only [SchedSystem.popLoop]
    split
    · exact ih
    · next hne =>
        split
        · exact h.picks_none
        · next t hnext =>
            have ht : t ∈ Q p k := by
              cases hl : Q p k with
              | nil => exact absurd (h.queued.isEmpty_iff.2 hl) hne
              | cons u l =>
                rw [h.queued.next_head hl] at hnext
                simp [QueueNode.entry.inj hnext]
            split
            · exact h.picks_none
            · split
              · exact h.picks_none
              · exact h.picks_popThread ht

theorem Core.kepPopNextThreadIfNeeded (h : Core exact w s Q) (c p : P) (mp : Nat)
    (other : Bool) : Picks exact w s Q (s.kepPopNextThreadIfNeeded c p mp other) := by
  unfold SchedSystem.kepPopNextThreadIfNeeded
  split
  · exact h.picks_none
  · exact h.popLoop c p other _

omit [DecidableEq P] [DecidableEq T] in
/-- The choice of a processor moves nothing. -/
theorem Core.kepGetNextProcessorToStealWorkFrom (h : Core exact w s Q) :
    Core exact w s.kepGetNextProcessorToStealWorkFrom.1 Q ∧
      Frame s s.kepGetNextProcessorToStealWorkFrom.1 := by
  unfold SchedSystem.kepGetNextProcessorToStealWorkFrom
  split
  · exact ⟨h, .refl s⟩
  · exact ⟨⟨h.queued, h.priority, h.resting, h.bound, h.books⟩,
      ⟨rfl, rfl, fun _ => rfl, fun _ => rfl, fun _ => rfl, fun _ => rfl⟩⟩

theorem Core.kepTryStealThread (h : Core exact w s Q) (c : P) (mp : Nat) :
    Picks exact w s Q (s.kepTryStealThread c mp) := by
  obtain ⟨hc, hfr⟩ := h.kepGetNextProcessorToStealWorkFrom
  unfold SchedSystem.kepTryStealThread
  split
  · next heq =>
      rw [heq] at hc hfr
      exact hc.picks_none.after hfr fun _ => Iff.rfl
  · next heq =>
      rw [heq] at hc hfr
      exact (hc.kepPopNextThreadIfNeeded c _ _ true).after hfr fun _ => Iff.rfl

/-- What a move of threads between the queues keeps. -/
def Moves (exact : Bool) (w : P → Nat) (s : SchedSystem P T) (Q : P → Nat → List T)
    (s' : SchedSystem P T) : Prop :=
  ∃ Q', Core exact w s' Q' ∧ Frame s s' ∧ ∀ u, Members Q' u ↔ Members Q u

section

variable (h : Core exact w s Q)
include h

theorem Core.stealQueue (their own : P) (i left : Nat) :
    Moves exact w s Q (SchedSystem.stealQueue their own i left s).1 := by
  induction left generalizing s Q with
  | zero => exact ⟨Q, h, .refl s, fun _ => Iff.rfl⟩
  | succ left ih =>
    simp only [SchedSystem.stealQueue]
    split
    · exact ⟨Q, h, .refl s, fun _ => Iff.rfl⟩
    · next hne =>
        split
        · exact ⟨Q, h, .refl s, fun _ => Iff.rfl⟩
        · next t hnext =>
            cases hl : Q their i with
            | nil => exact absurd (h.queued.isEmpty_iff.2 hl) hne
            | cons u l =>
              rw [h.queued.next_head hl] at hnext
              obtain rfl := QueueNode.entry.inj hnext
              obtain ⟨Q', hc, hme⟩ := h.moveThread hl own
              obtain ⟨Q'', hc', hfr, hme'⟩ := ih hc
              exact ⟨Q'', hc', (Frame.moveThread s their i u own).trans hfr,
                fun v => (hme' v).trans (hme v)⟩

theorem Core.stealQueues (their own : P) (i left : Nat) :
    Moves exact w s Q (SchedSystem.stealQueues their own i left s) := by
  induction i generalizing s Q left with
  | zero => exact ⟨Q, h, .refl s, fun _ => Iff.rfl⟩
  | succ i ih =>
    obtain ⟨Q', hc, hfr, hme⟩ := h.stealQueue their own (i + 1) left
    obtain ⟨Q'', hc', hfr', hme'⟩ := ih hc (SchedSystem.stealQueue their own (i + 1) left s).2
    exact ⟨Q'', hc', hfr.trans hfr', fun v => (hme' v).trans (hme v)⟩

theorem Core.kepStealManyThreads (c : P) :
    Moves exact w s Q (s.kepStealManyThreads c) := by
  obtain ⟨hc, hfr⟩ := h.kepGetNextProcessorToStealWorkFrom
  unfold SchedSystem.kepStealManyThreads
  split
  · next heq =>
      rw [heq] at hc hfr
      exact ⟨Q, hc, hfr, fun _ => Iff.rfl⟩
  · next heq =>
      rw [heq] at hc hfr
      obtain ⟨Q', hc', hfr', hme⟩ := hc.stealQueues _ c _ _
      exact ⟨Q', hc', hfr.trans hfr', hme⟩

theorem Core.stealIfCrowded (c : P) :
    Moves exact w s Q (s.stealIfCrowded c) := by
  obtain ⟨hc, hfr⟩ := h.kepGetNextProcessorToStealWorkFrom
  unfold SchedSystem.stealIfCrowded
  split
  · dsimp only
    split
    · obtain ⟨Q', hc', hfr', hme⟩ := hc.kepStealManyThreads c
      exact ⟨Q', hc', hfr.trans hfr', hme⟩
    · exact ⟨Q, hc, hfr, fun _ => Iff.rfl⟩
  · exact ⟨Q, h, .refl s, fun _ => Iff.rfl⟩

theorem Core.kiGetNextThread (c : P) (md : Bool) :
    Picks exact w s Q (s.kiGetNextThread c md) := by
  obtain ⟨Q', hc, hfr, hme⟩ := h.stealIfCrowded c
  refine Picks.after ?_ hfr hme
  refine ((((hc.kepPopNextThreadIfNeeded c c _ false).orElse fun s' Q' h' => ?_).orElse
    fun s' Q' h' => ?_).orElse fun s' Q' h' => ?_).orElse fun s' Q' h' => ?_
  · exact h'.kepTryStealThread c _
  · exact h'.kepPopNextThreadIfNeeded c c _ false
  · exact h'.kepTryStealThread c _
  · split
    · exact (h'.kepTryStealThread c 1).orElse fun s'' Q'' h'' =>
        h''.kepPopNextThreadIfNeeded c c 0 false
    · exact h'.picks_none

end

end SchedSystem

end Boron.Ke
