import Boron.Lib.Run
import Boron.Ke.SchedQueues

/-! # Ready queues and thread lists over whole runs

A run starts with empty queues, before any thread exists. The history counts the wakes of
`KiUnwaitThread` that put a thread on the queues of each processor, and remembers which threads have
been readied and not cleaned up since.

Two things go wrong. `KiUnwaitThread` does not count the thread it queues, so the counts of the
processors are exact as long as nothing is woken. A thread that is suspended while it is in the
system goes through `KiReadyThread` when it is resumed, which puts it on the global list once more.
Both need `KiSetPriorityThread` to be called on the right threads: it takes stale links for a place
in a queue of its own processor. -/

namespace Boron.Ke

open Function List Option

variable {P T : Type} [DecidableEq P] [DecidableEq T]

/-! ## Histories -/

/-- The scheduler before any thread, as `KeSchedulerInitUP` and `KeSchedulerInit` set it up. -/
def SchedSystem.boot (processors : List P) (first : P) : SchedSystem P T where
  processors := processors
  queues := ⟨id, id⟩
  global := ⟨id, id⟩
  scheduler _ :=
    { execQueueMask := 0
      threadsOnQueueCount := 0
      currentThread := none
      nextThread := none }
  thread _ :=
    { status := .uninitialized
      suspended := false
      priority := 0
      basePriority := 0
      priorityBoost := 0
      lastProcessor := first
      dontSteal := false
      affinity := fun _ => false }
  mostCrowded := none
  nextToSteal := 0
  deleteDpc _ := false

structure SchedHistory (P T : Type) where
  system : SchedSystem P T
  /-- How many threads `KiUnwaitThread` has put on the queues of the processor. -/
  wakes : P → Nat
  /-- The thread has been through `KiReadyThread` and not through its cleanup DPC since. -/
  listed : T → Bool

namespace SchedHistory

def start (processors : List P) (first : P) : SchedHistory P T :=
  ⟨.boot processors first, fun _ => 0, fun _ => false⟩

/-- The thread that the action passes to `KiReadyThread`. -/
def readies (s : SchedSystem P T) : SchedAction P T → Option T
  | .ready _ t => some t
  | .setSuspended _ t false =>
    if (s.thread t).suspended ∧ (s.thread t).status = .initialized then some t else none
  | _ => none

def wakesAfter (h : SchedHistory P T) : SchedAction P T → P → Nat
  | .unwait t _ =>
    let p := (h.system.thread t).lastProcessor
    update h.wakes p (h.wakes p + 1)
  | _ => h.wakes

def listedAfter (h : SchedHistory P T) (a : SchedAction P T) : T → Bool :=
  match a, readies h.system a with
  | _, some t => update h.listed t true
  | .cleanUp t, none => update h.listed t false
  | _, none => h.listed

def step (h : SchedHistory P T) (a : SchedAction P T) : Option (SchedHistory P T) :=
  (h.system.step a).map fun s => ⟨s, h.wakesAfter a, h.listedAfter a⟩

end SchedHistory

/-! ## What the lists should say -/

namespace SchedSystem

/-- The bookkeeping of the ready queues: with `Q p k` the threads of queue `k` of processor `p`, the
mask has the bits of the queues that are not empty, the count is the number of all threads in them,
and a thread is in the queue of its priority. -/
def ReadyQueuesOk (s : SchedSystem P T) : Prop :=
  ∃ Q : P → Nat → List T, ∀ p,
    (∀ k < priorityCount, s.queues.Ring (.head p k) ((Q p k).map .entry) ∧
      ((s.scheduler p).execQueueMask.getLsbD k = true ↔ Q p k ≠ []) ∧
      ∀ t ∈ Q p k, (s.thread t).priority = k) ∧
    (s.scheduler p).threadsOnQueueCount = (total Q p : Int) ∧
    0 ≤ (s.scheduler p).threadsOnQueueCount

/-- The thread is in a queue of the processor. -/
def QueuedOn (s : SchedSystem P T) (p : P) (t : T) : Prop :=
  ∃ k < priorityCount, ∃ l, s.queues.Ring (.head p k) l ∧ .entry t ∈ l

end SchedSystem

/-- A thread is in exactly one ready queue, once, if it is ready, and in none otherwise; at most one
processor runs it; the global list is a well-formed list with every listed thread on it once. -/
structure SchedHistory.ThreadListsOk (h : SchedHistory P T) : Prop where
  queues : ∃ Q : P → Nat → List T,
    (∀ p k, k < priorityCount → h.system.queues.Ring (.head p k) ((Q p k).map .entry)) ∧
    ∀ t, if (h.system.thread t).status = .ready
      then ∃! pk : P × Nat, pk.2 < priorityCount ∧ (Q pk.1 pk.2).count t = 1
      else ∀ p, ∀ k < priorityCount, t ∉ Q p k
  current : ∀ p q t, (h.system.scheduler p).currentThread = some t →
    (h.system.scheduler q).currentThread = some t → p = q
  global : ∃ l : List T, h.system.global.Ring .head (l.map .entry) ∧
    ∀ t, h.listed t = true → l.count t = 1

/-! ## The invariant

In the middle of a switch on processor `away`, the current thread of that processor need not be
running, and thread `picked` has left the queues while it is still ready. -/

structure SchedInv (exact : Bool) (w : P → Nat) (listed : T → Bool) (s : SchedSystem P T)
    (Q : P → Nat → List T) (away : Option P) (picked : Option T) : Prop where
  core : s.Core exact w Q
  ready_iff : ∀ t, (s.thread t).status = .ready ↔ Members Q t ∨ picked = some t
  apart : ∀ t, picked = some t → ¬ Members Q t
  running : ∀ p t, away ≠ some p → (s.scheduler p).currentThread = some t →
    (s.thread t).status = .running
  alone : ∀ p q t, (s.scheduler p).currentThread = some t →
    (s.scheduler q).currentThread = some t → p = q
  next : ∀ p, away ≠ some p → (s.scheduler p).nextThread = none
  live : ∀ t, (s.thread t).status = .ready ∨ (s.thread t).status = .waiting → listed t = true
  held : ∀ p t, (s.scheduler p).currentThread = some t → listed t = true
  dpc : ∀ t, s.deleteDpc t = true → (s.thread t).status = .terminated ∧ listed t = true

namespace SchedSystem

variable {exact : Bool} {w w' : P → Nat} {listed listed' : T → Bool} {s s' : SchedSystem P T}
  {Q Q' : P → Nat → List T} {away : Option P} {picked : Option T} {c : P} {t : T} {x : SchedThread P}

omit [DecidableEq P] [DecidableEq T] in
/-- The invariant of the queues is about the links, the priorities, the masks and the counts. -/
theorem Core.congr (h : Core exact w s Q) (hq : s'.queues = s.queues)
    (hh : ∀ u, (s'.thread u).priority = (s.thread u).priority ∧
      (s'.thread u).basePriority = (s.thread u).basePriority)
    (hms : s'.masks = s.masks) (hc : s'.counts = s.counts) : Core exact w s' Q := by
  refine ⟨hq ▸ h.queued, fun {p k u} hu => ?_, fun u hu => ?_, fun u => ?_, fun he => ?_⟩
  · rw [(hh u).1]
    exact h.priority hu
  · rw [(hh u).1, (hh u).2]
    exact h.resting u hu
  · rw [(hh u).1, (hh u).2]
    exact h.bound u
  · rw [hms, hc]
    exact h.books he

/-- The processors after thread `t` has been put at the end of queue `k` of processor `c`. -/
def enqueued (s : SchedSystem P T) (c : P) (k : Nat) (t : T) : SchedSystem P T :=
  ((s.insertTailQueue c k t).addToCount c 1).setMaskBit c k

theorem Frame.enqueued (s : SchedSystem P T) (c : P) (k : Nat) (t : T) : Frame s (s.enqueued c k t) :=
  ((Frame.queues s _).trans (.addToCount _ c 1)).trans (.setMaskBit _ c k)

/-- The rule for `KiReadyThread` and `KiEndThreadQuantum`, which count the thread. -/
theorem Core.enqueue (h : Core exact w s Q) (ht : ¬ Members Q t)
    (hc : s'.scheduler = (s.enqueued c (s.thread t).priority t).scheduler)
    (hq : s'.queues = s.queues.insertTail (.head c (s.thread t).priority) (.entry t))
    (hh : ∀ u, (s'.thread u).priority = (s.thread u).priority ∧
      (s'.thread u).basePriority = (s.thread u).basePriority) :
    Core exact w s' (put Q c (s.thread t).priority (Q c (s.thread t).priority ++ [t])) := by
  refine h.insertTail ht (h.bound t).1 hq (fun u _ => hh u) ?_ (fun q => ?_) fun q => ?_
  · rw [(hh t).1, (hh t).2]
    exact ⟨rfl, (h.bound t).2⟩
  · rw [show s'.masks q = (s.enqueued c (s.thread t).priority t).masks q by rw [masks, hc]; rfl]
    simp [SchedSystem.enqueued]
  · rw [show s'.counts q = (s.enqueued c (s.thread t).priority t).counts q by
      rw [counts, hc]; rfl]
    simp only [SchedSystem.enqueued, counts_setMaskBit, counts_addToCount, counts_insertTailQueue]
    split <;> omega

omit [DecidableEq P] in
theorem Core.setThread_same (h : Core exact w s Q) (hp : x.priority = (s.thread t).priority)
    (hb : x.basePriority = (s.thread t).basePriority) : Core exact w (s.setThread t x) Q := by
  refine h.congr rfl (fun u => ?_) rfl rfl
  by_cases hu : u = t
  · subst hu
    simp [hp, hb]
  · simp [hu]

omit [DecidableEq P] in
theorem Core.setThread_idle (h : Core exact w s Q) (ht : ¬ Members Q t)
    (hp : x.priority = x.basePriority) (hb : x.basePriority < priorityCount) :
    Core exact w (s.setThread t x) Q := by
  refine ⟨h.queued, fun {p k u} hu => ?_, fun u hu => ?_, fun u => ?_, h.books⟩
  · have hne : u ≠ t := by
      rintro rfl
      exact ht ⟨p, k, hu⟩
    rw [thread_setThread, update_of_ne hne]
    exact h.priority hu
  · by_cases hne : u = t
    · rw [hne, thread_setThread, update_self]
      exact hp
    · rw [thread_setThread, update_of_ne hne]
      exact h.resting u hu
  · by_cases hne : u = t
    · rw [hne, thread_setThread, update_self, hp]
      exact ⟨hb, hb⟩
    · rw [thread_setThread, update_of_ne hne]
      exact h.bound u

end SchedSystem

namespace SchedInv

open SchedSystem

variable {exact : Bool} {w w' : P → Nat} {listed listed' : T → Bool} {s s' : SchedSystem P T}
  {Q Q' : P → Nat → List T} {away : Option P} {picked : Option T} {c : P} {t : T}

section

omit [DecidableEq P] [DecidableEq T]

section

variable (h : SchedInv exact w listed s Q away picked)
include h

theorem not_members (ht : (s.thread t).status ≠ .ready) : ¬ Members Q t :=
  fun hm => ht ((h.ready_iff t).2 (.inl hm))

theorem current {C : Prop}
    (hC : (s.thread t).status = .running → C) (p : P) (hp : away ≠ some p)
    (hc : (s.scheduler p).currentThread = some t) : C :=
  hC (h.running p t hp hc)

theorem change (hcr : s'.Core exact w' Q')
    (hc : ∀ p, (s'.scheduler p).currentThread = (s.scheduler p).currentThread ∧
      (s'.scheduler p).nextThread = (s.scheduler p).nextThread)
    (hdp : s'.deleteDpc = s.deleteDpc)
    (hother : ∀ u, u ≠ t → (s'.thread u).status = (s.thread u).status ∧ listed' u = listed u ∧
      (Members Q' u ↔ Members Q u))
    (hrd : (s'.thread t).status = .ready ↔ Members Q' t ∨ picked = some t)
    (hpc : picked = some t → ¬ Members Q' t)
    (hrn : ∀ p, away ≠ some p → (s.scheduler p).currentThread = some t →
      (s'.thread t).status = .running)
    (he : (s.thread t).status = .terminated → (s'.thread t).status = .terminated)
    (hkp : listed t = true → listed' t = true)
    (hlv : (s'.thread t).status = .ready ∨ (s'.thread t).status = .waiting → listed' t = true) :
    SchedInv exact w' listed' s' Q' away picked := by
  have hls : ∀ u, listed u = true → listed' u = true := by
    intro u hu
    by_cases hut : u = t
    · subst hut
      exact hkp hu
    · rw [(hother u hut).2.1]
      exact hu
  refine ⟨hcr, fun u => ?_, fun u hu => ?_, fun p u hp hu => ?_, fun p q u hp hq => ?_,
    fun p hp => ?_, fun u hu => ?_, fun p u hu => ?_, fun u hu => ?_⟩
  · by_cases hut : u = t
    · subst hut
      exact hrd
    · rw [(hother u hut).1, (hother u hut).2.2]
      exact h.ready_iff u
  · by_cases hut : u = t
    · subst hut
      exact hpc hu
    · rw [(hother u hut).2.2]
      exact h.apart u hu
  · rw [(hc p).1] at hu
    by_cases hut : u = t
    · subst hut
      exact hrn p hp hu
    · rw [(hother u hut).1]
      exact h.running p u hp hu
  · rw [(hc p).1] at hp
    rw [(hc q).1] at hq
    exact h.alone p q u hp hq
  · rw [(hc p).2]
    exact h.next p hp
  · by_cases hut : u = t
    · subst hut
      exact hlv hu
    · rw [(hother u hut).1] at hu
      exact hls u (h.live u hu)
  · rw [(hc p).1] at hu
    exact hls u (h.held p u hu)
  · rw [hdp] at hu
    obtain ⟨hst, hl⟩ := h.dpc u hu
    refine ⟨?_, hls u hl⟩
    by_cases hut : u = t
    · subst hut
      exact he hst
    · rw [(hother u hut).1]
      exact hst

end

end

/-! ## Steps outside a switch -/

theorem kiInitializeThread (h : SchedInv exact w listed s Q away none)
    (ht : (s.thread t).status = .uninitialized) (c : P) {prio : Nat}
    (hp : prio < priorityCount) (aff : P → Bool) :
    SchedInv exact w listed (s.kiInitializeThread c t prio aff) Q away none := by
  have hme := h.not_members (t := t) (by simp [ht])
  have hc : (s.kiInitializeThread c t prio aff).Core exact w Q := by
    have hst := h.core.setThread_idle (x := ((s.kiInitializeThread c t prio aff).thread t))
      hme (by simp [SchedSystem.kiInitializeThread]) (by simpa [SchedSystem.kiInitializeThread])
    have hsl : (s.kiInitializeThread c t prio aff).thread =
        update s.thread t ((s.kiInitializeThread c t prio aff).thread t) := by
      simp [SchedSystem.kiInitializeThread]
    refine ⟨h.core.queued.initHead hme, ?_, ?_, ?_, hst.books⟩
    · rw [hsl]
      exact hst.priority
    · rw [hsl]
      exact hst.resting
    · rw [hsl]
      exact hst.bound
  refine h.change (t := t) hc (fun p => ⟨rfl, rfl⟩) rfl (fun u hu => ?_) ?_ nofun (h.current ?_) ?_ id ?_
  · simp [SchedSystem.kiInitializeThread, hu]
  · simp [SchedSystem.kiInitializeThread, hme]
  · simp [ht]
  · simp [ht]
  · simp [SchedSystem.kiInitializeThread]

theorem kiReadyThread (h : SchedInv exact w listed s Q away none)
    (ht : (s.thread t).status = .initialized) (c : P) :
    ∃ Q', SchedInv exact w (update listed t true) (s.kiReadyThread c t) Q' away none := by
  have hme := h.not_members (t := t) (by simp [ht])
  have hin : ∀ v, v ∈ Q c (s.thread t).priority ++ [t] ↔ v = t ∨ v ∈ Q c (s.thread t).priority := by
    simp [or_comm]
  have hc : (s.kiReadyThread c t).scheduler = (s.enqueued c (s.thread t).priority t).scheduler := by
    simp only [SchedSystem.kiReadyThread, setThread, update_self]
    rfl
  have hst : ((s.kiReadyThread c t).thread t).status = .ready := by
    simp [SchedSystem.kiReadyThread]
  refine ⟨_, h.change (t := t) (h.core.enqueue hme hc ?_ fun u => ?_) (fun p => ?_) rfl
    (fun u hu => ?_) ?_ (fun hp => by cases hp) (h.current ?_) ?_ ?_ ?_⟩
  · simp [SchedSystem.kiReadyThread]
  · by_cases hu : u = t
    · simp [SchedSystem.kiReadyThread, hu]
    · simp [SchedSystem.kiReadyThread, hu]
  · rw [hc]
    exact ⟨(Frame.enqueued s c _ t).current p, (Frame.enqueued s c _ t).next p⟩
  · rw [members_insert hin]
    simp [SchedSystem.kiReadyThread, hu]
  · simp [hst, members_insert hin]
  · simp [ht]
  · simp [ht]
  · simp
  · simp

omit [DecidableEq P] in
/-- Fields of a thread that the scheduling does not depend on. -/
theorem setThread_same {x : SchedThread P} (h : SchedInv exact w listed s Q away picked)
    (hst : x.status = (s.thread t).status) (hp : x.priority = (s.thread t).priority)
    (hb : x.basePriority = (s.thread t).basePriority) :
    SchedInv exact w listed (s.setThread t x) Q away picked := by
  have hss : ((s.setThread t x).thread t).status = (s.thread t).status := by simp [hst]
  refine h.change (t := t) (h.core.setThread_same hp hb) (fun p => ⟨rfl, rfl⟩) rfl (fun u hu => ?_)
    ?_ (h.apart t) (h.current ?_) ?_ id ?_
  · simp [hu]
  · rw [hss]
    exact h.ready_iff t
  · rw [hss]
    exact id
  · rw [hss]
    exact id
  · rw [hss]
    exact h.live t

theorem kiSetSuspendedThread (h : SchedInv exact w listed s Q away none) (c : P) (t : T) (b : Bool) :
    ∃ Q', SchedInv exact w (match SchedHistory.readies s (.setSuspended c t b) with
        | some t => update listed t true
        | none => listed) (s.kiSetSuspendedThread c t b) Q' away none := by
  have hst := h.setThread_same (t := t) (x := { s.thread t with suspended := b }) rfl rfl rfl
  by_cases hsm : (s.thread t).suspended = b
  · have hnn : SchedHistory.readies s (.setSuspended c t b) = none := by
      cases b <;> simp [SchedHistory.readies, hsm]
    rw [SchedSystem.kiSetSuspendedThread, if_pos hsm, hnn]
    exact ⟨Q, h⟩
  · rw [SchedSystem.kiSetSuspendedThread, if_neg hsm]
    cases b with
    | true => exact ⟨Q, hst⟩
    | false =>
      have htt : (s.thread t).suspended = true := by simpa using hsm
      by_cases hin : (s.thread t).status = .initialized
      · simpa [SchedHistory.readies, htt, hin] using hst.kiReadyThread (t := t) (by simp [hin]) c
      · refine ⟨Q, ?_⟩
        simpa [SchedHistory.readies, htt, hin] using hst

/-! ### `KiUnwaitThread` -/

theorem kiAdjustPriorityBoost_lt {base boost : Nat} (hb : base < priorityCount) :
    base + kiAdjustPriorityBoost base boost < priorityCount := by
  unfold priorityCount at *
  simp only [kiAdjustPriorityBoost]
  split_ifs <;> omega

theorem kiUnwaitThread (h : SchedInv exact w listed s Q away none)
    (ht : (s.thread t).status = .waiting) (inc : Nat) :
    ∃ Q', SchedInv exact (update w (s.thread t).lastProcessor
      (w (s.thread t).lastProcessor + 1)) listed (s.kiUnwaitThread t inc) Q' away none := by
  have hme := h.not_members (t := t) (by simp [ht])
  have hlt : (s.thread t).basePriority + kiAdjustPriorityBoost (s.thread t).priority inc <
      priorityCount := by
    rw [h.core.resting t hme]
    exact kiAdjustPriorityBoost_lt (h.core.bound t).2
  have hin : ∀ p k, ∀ v, v ∈ Q p k ++ [t] ↔ v = t ∨ v ∈ Q p k := by simp [or_comm]
  have hst : ((s.kiUnwaitThread t inc).thread t).status = .ready := by
    simp [SchedSystem.kiUnwaitThread]
  refine ⟨_, h.change (t := t) (h.core.insertTail (p := (s.thread t).lastProcessor) hme hlt ?_
    (fun u hu => ?_) ?_ (fun q => ?_) fun q => ?_) (fun p => ?_) rfl (fun u hu => ?_) ?_ nofun
    (h.current ?_) ?_ id ?_⟩
  · simp [SchedSystem.kiUnwaitThread]
  · simp [SchedSystem.kiUnwaitThread, hu]
  · simp [SchedSystem.kiUnwaitThread, (h.core.bound t).2]
  · simp [SchedSystem.kiUnwaitThread]
  · simp only [SchedSystem.kiUnwaitThread, counts_kiCheckOverloadedExecQueues, counts_setMaskBit,
      counts_insertTailQueue, counts_setThread, update_apply]
    split
    · next heq =>
        rw [heq]
        push_cast
        omega
    · omega
  · exact ⟨(Frame.setMaskBit s _ _).current p, (Frame.setMaskBit s _ _).next p⟩
  · rw [members_insert (hin _ _)]
    simp [SchedSystem.kiUnwaitThread, hu]
  · simp [hst, members_insert (hin _ _)]
  · simp [ht]
  · simp [ht]
  · exact fun _ => h.live t (.inr ht)

/-! ### `KiSetPriorityThread` -/

theorem kiSetPriorityThread_of_isEmpty {prio : Nat} (he : s.queues.isEmpty (.entry t) = true) :
    s.kiSetPriorityThread c t prio = s.setThread t { s.thread t with
      priority := prio, basePriority := prio, priorityBoost := 0 } := by
  simp only [SchedSystem.kiSetPriorityThread, if_pos he]

theorem frame_kiSetPriorityThread (s : SchedSystem P T) (c : P) (t : T) (prio : Nat) :
    SchedSystem.Frame s (s.kiSetPriorityThread c t prio) := by
  by_cases he : s.queues.isEmpty (.entry t) = true
  · rw [kiSetPriorityThread_of_isEmpty he]
    exact .setThread s t rfl rfl
  · simp only [SchedSystem.kiSetPriorityThread, if_neg he]
    exact ((((Frame.queues s _).trans (.clearMaskBitIfEmpty _ c _)).trans (.queues _ _)).trans
      (.setMaskBit _ c prio)).trans (.setThread _ t rfl rfl)

omit [DecidableEq P] [DecidableEq T] in
theorem mem_of_queuedOn (h : SchedInv exact w listed s Q away picked) (ht : s.QueuedOn c t) :
    ∃ k, t ∈ Q c k := by
  obtain ⟨k, -, l, hr, hme⟩ := ht
  rw [hr.unique (h.core.queued.ring c k)] at hme
  exact ⟨k, by simpa using hme⟩

theorem kiSetPriorityThread {prio : Nat} (h : SchedInv exact w listed s Q away none)
    (hp : prio < priorityCount)
    (hok : s.queues.isEmpty (.entry t) = true ∨ (s.thread t).status = .ready)
    (hec : exact = true → s.queues.isEmpty (.entry t) = true ∨ s.QueuedOn c t) :
    ∃ Q', SchedInv exact w listed (s.kiSetPriorityThread c t prio) Q' away none := by
  by_cases he : s.queues.isEmpty (.entry t) = true
  · -- A thread that was never queued only gets its new priority.
    have hme : ¬ Members Q t := fun hm => by
      rw [h.core.queued.not_isEmpty_entry hm] at he
      cases he
    rw [kiSetPriorityThread_of_isEmpty he]
    refine ⟨Q, h.change (t := t) (h.core.setThread_idle hme rfl hp) (fun p => ⟨rfl, rfl⟩) rfl
      (fun u hu => ?_) ?_ (fun hc => by cases hc) (h.current ?_) ?_ id ?_⟩
    · simp [hu]
    · simpa using h.ready_iff t
    · simp
    · simp
    · simpa using h.live t
  · have hrd := hok.resolve_left he
    obtain ⟨p, k, ht⟩ : Members Q t := by simpa using (h.ready_iff t).1 hrd
    have hk := h.core.lt_of_mem ht
    have hold := h.core.priority ht
    obtain ⟨l, hq, hin, hln⟩ := h.core.queued.moveTo ht c prio ((s.thread t).priority > prio)
    have hmb : ∀ u, Members (put (put Q p k ((Q p k).erase t)) c prio l) u ↔ Members Q u := by
      intro u
      rw [members_insert hin, h.core.queued.apart.members_erase ht]
      by_cases hut : u = t
      · simp [hut, show Members Q t from ⟨p, k, ht⟩]
      · simp [hut]
    have hsl : (s.kiSetPriorityThread c t prio).thread t = { s.thread t with
        priority := prio, basePriority := prio, priorityBoost := 0 } := by
      simp [SchedSystem.kiSetPriorityThread, he]
    have hother : ∀ u, u ≠ t → (s.kiSetPriorityThread c t prio).thread u = s.thread u := by
      intro u hu
      simp [SchedSystem.kiSetPriorityThread, he, hu]
    have hcr : (s.kiSetPriorityThread c t prio).Core exact w
        (put (put Q p k ((Q p k).erase t)) c prio l) := by
      refine ⟨?_, fun {q j u} hu => ?_, fun u hu => ?_, fun u => ?_, fun hx => ?_⟩
      · simpa [SchedSystem.kiSetPriorityThread, he] using hq
      · rcases (mem_put_insert hin).1 hu with hm | ⟨rfl, -, rfl⟩
        · obtain ⟨hm, hne⟩ := (h.core.queued.apart.mem_put_erase ht).1 hm
          rw [hother u hne]
          exact h.core.priority hm
        · rw [hsl]
      · have hne : u ≠ t := by
          rintro rfl
          exact hu ((hmb u).2 ⟨p, k, ht⟩)
        rw [hother u hne]
        exact h.core.resting u fun hm => hu ((hmb u).2 hm)
      · by_cases hut : u = t
        · rw [hut, hsl]
          exact ⟨hp, hp⟩
        · rw [hother u hut]
          exact h.core.bound u
      · -- The books are those of the calling processor, so the thread has to be in its queues.
        obtain ⟨k', ht'⟩ := h.mem_of_queuedOn ((hec hx).resolve_left he)
        obtain ⟨rfl, rfl⟩ := h.core.queued.apart.one ht ht'
        have hst : (s.masks p).getLsbD k = true :=
          ((h.core.books hx).mask p k hk).2 (ne_nil_of_mem ht)
        refine (h.core.books hx).transfer hk hp (length_erase_add_one ht) hln
          (fun q j hj => ?_) fun q => ?_
        · have hem : ¬ (p = p ∧ k = prio) → (s.queues.remove (.entry t)).isEmpty (.head p k) =
                !decide ((Q p k).erase t ≠ []) := fun _ => by
            rw [Bool.eq_iff_iff, (h.core.queued.remove ht).isEmpty_iff, put_self]
            simp
          have hb := getLsbD_clear_set (s.masks q) hj hk hp (fun hqp : q = p => hqp ▸ hst) hem
          rw [← hb]
          simp only [SchedSystem.kiSetPriorityThread, if_neg he, masks_setThread, masks_setMaskBit,
            masks_queues, masks_clearMaskBitIfEmpty, hold]
        · simp only [SchedSystem.kiSetPriorityThread, if_neg he, counts_setThread, counts_setMaskBit,
            counts_queues, counts_clearMaskBitIfEmpty]
          split <;> omega
    have hfr := frame_kiSetPriorityThread s c t prio
    refine ⟨_, h.change (t := t) hcr (fun p => ⟨hfr.current p, hfr.next p⟩)
      hfr.deleteDpc (fun u hu => ?_) ?_ (fun hc => by cases hc) (h.current ?_) ?_ id ?_⟩
    · rw [hother u hu, hmb]
      simp
    · rw [hsl, hmb]
      exact h.ready_iff t
    · rw [hsl]
      exact id
    · rw [hsl]
      exact id
    · rw [hsl]
      exact h.live t

/-! ## Switching -/

omit [DecidableEq P] [DecidableEq T] in
theorem weaken (h : SchedInv exact w listed s Q none picked) (c : P) :
    SchedInv exact w listed s Q (some c) picked :=
  { h with
    running := fun p t _ => h.running p t nofun
    next := fun p _ => h.next p nofun }

theorem kiGetNextThread (h : SchedInv exact w listed s Q away none) (c : P) (md : Bool) :
    ∃ Q', SchedInv exact w listed (s.kiGetNextThread c md).1 Q' away (s.kiGetNextThread c md).2 ∧
      SchedSystem.Frame s (s.kiGetNextThread c md).1 := by
  obtain ⟨Q', hc, hfr, hme, hpc⟩ := h.core.kiGetNextThread c md
  refine ⟨Q', ⟨hc, fun t => ?_, fun t ht hm => ?_, fun p t hp ht => ?_, fun p q t hp hq => ?_,
    fun p hp => ?_, fun t ht => ?_, fun p t ht => ?_, fun t ht => ?_⟩, hfr⟩
  · rw [hfr.status, h.ready_iff, hme]
    constructor
    · rintro (hm | hm)
      · by_cases hp : (s.kiGetNextThread c md).2 = some t
        · exact .inr hp
        · exact .inl ⟨hm, hp⟩
      · cases hm
    · rintro (⟨hm, -⟩ | hp)
      · exact .inl hm
      · exact .inl (hpc t hp)
  · exact ((hme t).1 hm).2 ht
  · rw [hfr.current] at ht
    rw [hfr.status]
    exact h.running p t hp ht
  · rw [hfr.current] at hp hq
    exact h.alone p q t hp hq
  · rw [hfr.next]
    exact h.next p hp
  · rw [hfr.status] at ht
    exact h.live t ht
  · rw [hfr.current] at ht
    exact h.held p t ht
  · rw [hfr.deleteDpc] at ht
    rw [hfr.status]
    exact h.dpc t ht

omit [DecidableEq T] in
/-- Changes to the processor that is switching, other than of its current thread. -/
theorem setNextThread (h : SchedInv exact w listed s Q (some c) picked) (t : T) :
    SchedInv exact w listed (s.setNextThread c t) Q (some c) picked := by
  have hc : ∀ p, ((s.setNextThread c t).scheduler p).currentThread = (s.scheduler p).currentThread := by
    intro p
    rw [SchedSystem.setNextThread, current_setScheduler]
    split
    · next hp => rw [hp]
    · rfl
  refine ⟨h.core.congr rfl (fun _ => ⟨rfl, rfl⟩) ?_ ?_, h.ready_iff, h.apart, fun p u hp hu => ?_,
    fun p q u hp hq => ?_, fun p hp => ?_, h.live, fun p u hu => ?_, h.dpc⟩
  · funext p
    rw [SchedSystem.setNextThread, masks_setScheduler]
    split
    · next hp => rw [hp, masks]
    · rfl
  · funext p
    rw [SchedSystem.setNextThread, counts_setScheduler]
    split
    · next hp => rw [hp, counts]
    · rfl
  · rw [hc] at hu
    exact h.running p u hp hu
  · rw [hc] at hp hq
    exact h.alone p q u hp hq
  · have hne : p ≠ c := fun heq => hp (heq ▸ rfl)
    rw [SchedSystem.setNextThread, next_setScheduler, if_neg hne]
    exact h.next p hp
  · rw [hc] at hu
    exact h.held p u hu

theorem kiSwitchToNextThread (h : SchedInv exact w listed s Q (some c) (some t)) :
    SchedInv exact w listed (s.kiSwitchToNextThread c t) Q none none := by
  have hrd : (s.thread t).status = .ready := (h.ready_iff t).2 (.inr rfl)
  have hc : ∀ p, ((s.kiSwitchToNextThread c t).scheduler p).currentThread =
      if p = c then some t else (s.scheduler p).currentThread := by
    intro p
    simp only [SchedSystem.kiSwitchToNextThread, setThread, setScheduler, update_apply]
    split <;> rfl
  have hsl : ((s.kiSwitchToNextThread c t).thread t).status = .running := by
    simp [SchedSystem.kiSwitchToNextThread]
  have hother : ∀ u, u ≠ t → (s.kiSwitchToNextThread c t).thread u = s.thread u := by
    intro u hu
    simp [SchedSystem.kiSwitchToNextThread, hu, setScheduler]
  have ha : ∀ p, p ≠ c → (s.scheduler p).currentThread ≠ some t := by
    intro p hp ht
    have hrn := h.running p t (fun heq => hp (some.inj heq).symm) ht
    rw [hrd] at hrn
    cases hrn
  refine ⟨h.core.congr rfl (fun u => ?_) ?_ ?_, fun u => ?_, fun u hu => (by cases hu), fun p u _ hu => ?_,
    fun p q u hp hq => ?_, fun p _ => ?_, fun u hu => ?_, fun p u hu => ?_, fun u hu => ?_⟩
  · by_cases hut : u = t
    · subst hut
      simp [SchedSystem.kiSwitchToNextThread, setScheduler]
    · rw [hother u hut]
      exact ⟨rfl, rfl⟩
  · funext p
    simp only [SchedSystem.kiSwitchToNextThread, masks_setThread, masks_setScheduler]
    split
    · next hp => rw [hp, masks]
    · rfl
  · funext p
    simp only [SchedSystem.kiSwitchToNextThread, counts_setThread, counts_setScheduler]
    split
    · next hp => rw [hp, counts]
    · rfl
  · by_cases hut : u = t
    · subst hut
      simp [hsl, h.apart u rfl]
    · rw [hother u hut, h.ready_iff]
      simp [Ne.symm hut]
  · rw [hc] at hu
    split at hu
    · cases hu
      exact hsl
    · next hp =>
        have hut : u ≠ t := fun heq => ha p hp (heq ▸ hu)
        rw [hother u hut]
        exact h.running p u (fun heq => hp (some.inj heq).symm) hu
  · rw [hc] at hp hq
    split at hp
    · next hpc =>
        cases hp
        split at hq
        · next hqc => rw [hpc, hqc]
        · next hqc => exact absurd hq (ha q hqc)
    · next hpc =>
        split at hq
        · cases hq
          exact absurd hp (ha p hpc)
        · exact h.alone p q u hp hq
  · simp only [SchedSystem.kiSwitchToNextThread, setThread]
    rw [next_setScheduler]
    split
    · rfl
    · next hp => exact h.next p fun heq => hp (some.inj heq).symm
  · by_cases hut : u = t
    · rw [hut]
      exact h.live t (.inl hrd)
    · rw [hother u hut] at hu
      exact h.live u hu
  · rw [hc] at hu
    split at hu
    · cases hu
      exact h.live t (.inl hrd)
    · exact h.held p u hu
  · have hdp := h.dpc u hu
    have hut : u ≠ t := by
      rintro rfl
      rw [hrd] at hdp
      cases hdp.1
    rw [hother u hut]
    exact hdp

/-- The current thread at the end of its quantum, when another one has been picked. -/
theorem putBack (h : SchedInv exact w listed s Q (some c) picked)
    (hcr : (s.scheduler c).currentThread = some t) (ht : (s.thread t).status = .running) :
    ∃ Q', SchedInv exact w listed (s.putBack c t) Q' (some c) picked := by
  have hme := h.not_members (t := t) (by simp [ht])
  have hpc : picked ≠ some t := by
    rintro rfl
    rw [(h.ready_iff t).2 (.inr rfl)] at ht
    cases ht
  have hrn : ∀ {C : Prop}, ∀ p, some c ≠ some p → (s.scheduler p).currentThread = some t → C :=
    fun p hp hc => absurd (congrArg some (h.alone c p t hcr hc)) hp
  have hls := h.held c t hcr
  by_cases hsu : (s.thread t).suspended = true
  · have hst : ((s.putBack c t).thread t).status = .initialized := by
      simp [SchedSystem.putBack, hsu]
    refine ⟨Q, h.change (t := t) (h.core.congr ?_ (fun u => ?_) ?_ ?_) (fun p => ?_) ?_
      (fun u hu => ?_) ?_ (h.apart t) hrn ?_ id ?_⟩
    · simp [SchedSystem.putBack, hsu]
    · by_cases hu : u = t
      · subst hu
        simp [SchedSystem.putBack, hsu]
      · simp [SchedSystem.putBack, hsu, hu]
    · simp [SchedSystem.putBack, hsu]
    · simp [SchedSystem.putBack, hsu]
    · simp only [SchedSystem.putBack, hsu]
      exact ⟨rfl, rfl⟩
    · simp only [SchedSystem.putBack, hsu]
      rfl
    · simp [SchedSystem.putBack, hsu, hu]
    · simp [hst, hme, hpc]
    · simp [ht]
    · simp [hst]
  · have hin : ∀ v, v ∈ Q c (s.thread t).priority ++ [t] ↔ v = t ∨ v ∈ Q c (s.thread t).priority := by
      simp [or_comm]
    have hsc : (s.putBack c t).scheduler = (s.enqueued c (s.thread t).priority t).scheduler := by
      simp only [SchedSystem.putBack, if_neg hsu, setThread]
      rfl
    have hst : ((s.putBack c t).thread t).status = .ready := by
      simp [SchedSystem.putBack, hsu]
    refine ⟨_, h.change (t := t) (h.core.enqueue hme hsc ?_ fun u => ?_) (fun p => ?_) ?_
      (fun u hu => ?_) ?_ (fun hp => absurd hp hpc) hrn ?_ id fun _ => hls⟩
    · simp [SchedSystem.putBack, hsu]
    · by_cases hu : u = t
      · subst hu
        simp [SchedSystem.putBack, hsu]
      · simp [SchedSystem.putBack, hsu, hu]
    · rw [hsc]
      exact ⟨(Frame.enqueued s c _ t).current p, (Frame.enqueued s c _ t).next p⟩
    · simp only [SchedSystem.putBack, if_neg hsu]
      rfl
    · rw [members_insert hin]
      simp [SchedSystem.putBack, hsu, hu]
    · simp [hst, members_insert hin]
    · simp [ht]

theorem next_putBack (s : SchedSystem P T) (c : P) (t : T) :
    ((s.putBack c t).scheduler c).nextThread = (s.scheduler c).nextThread := by
  by_cases hsu : (s.thread t).suspended = true
  · simp only [SchedSystem.putBack, hsu]
    rfl
  · have hc : (s.putBack c t).scheduler = (s.enqueued c (s.thread t).priority t).scheduler := by
      simp only [SchedSystem.putBack, if_neg hsu, setThread]
      rfl
    rw [hc, (Frame.enqueued s c _ t).next]

/-- Before `KiSwitchToNextThread`: either nothing is to be switched to, or the thread that was picked
is. -/
def Switchable (exact : Bool) (w : P → Nat) (listed : T → Bool) (c : P) (s : SchedSystem P T) :
    Prop :=
  ∃ Q, (SchedInv exact w listed s Q none none ∧ (s.scheduler c).nextThread = none) ∨
    ∃ t, SchedInv exact w listed s Q (some c) (some t) ∧ (s.scheduler c).nextThread = some t

theorem kiEndThreadQuantum (h : SchedInv exact w listed s Q none none) (c : P) :
    Switchable exact w listed c (s.kiEndThreadQuantum c) := by
  obtain ⟨Q', hin, hfr⟩ := h.kiGetNextThread c false
  unfold SchedSystem.kiEndThreadQuantum
  rcases hr : s.kiGetNextThread c false with ⟨s', o⟩
  rw [hr] at hin hfr
  cases o with
  | none => exact ⟨Q', .inl ⟨hin, hin.next c nofun⟩⟩
  | some next =>
    have hst := (hin.weaken c).setNextThread next
    have hnext : ((s'.setNextThread c next).scheduler c).nextThread = some next := by
      rw [SchedSystem.setNextThread, next_setScheduler, if_pos rfl]
    cases hc : (s.scheduler c).currentThread with
    | none => exact ⟨Q', .inr ⟨next, hst, hnext⟩⟩
    | some t =>
      have hc' : (s'.scheduler c).currentThread = some t := by rw [hfr.current, hc]
      have hc'' : ((s'.setNextThread c next).scheduler c).currentThread = some t := by
        rw [SchedSystem.setNextThread, current_setScheduler, if_pos rfl, hc']
      obtain ⟨Q'', hp⟩ := hst.putBack hc'' (hin.running c t nofun hc')
      exact ⟨Q'', .inr ⟨next, hp, by rw [next_putBack, hnext]⟩⟩

omit [DecidableEq P] in
theorem setDeleteDpc (h : SchedInv exact w listed s Q away picked)
    (hc : (s.scheduler c).currentThread = some t) (ht : (s.thread t).status = .terminated) :
    SchedInv exact w listed { s with deleteDpc := update s.deleteDpc t true } Q away picked := by
  refine ⟨⟨h.core.queued, h.core.priority, h.core.resting, h.core.bound, h.core.books⟩, h.ready_iff,
    h.apart, h.running, h.alone, h.next, h.live, h.held, fun u hu => ?_⟩
  by_cases hut : u = t
  · subst hut
    exact ⟨ht, h.held c u hc⟩
  · exact h.dpc u (by simpa [hut] using hu)

section

variable (h : SchedInv exact w listed s Q away none)
  (ha : away = none ∨ away = some c ∧ ∃ t, (s.scheduler c).currentThread = some t ∧ (s.thread t).status ≠ .running)
include h ha

theorem kiPerformYield (hst : s.kiPerformYield c = some s') : Switchable exact w listed c s' := by
  unfold SchedSystem.kiPerformYield at hst
  rcases ha with rfl | ⟨rfl, t, hc, hne⟩
  · have he : some (s.kiEndThreadQuantum c) = some s' := by
      cases hc : (s.scheduler c).currentThread with
      | none => rwa [hc] at hst
      | some t =>
        rw [hc] at hst
        simpa [h.running c t nofun hc] using hst
    cases he
    exact h.kiEndThreadQuantum c
  · obtain ⟨Q', hin, hfr⟩ := h.kiGetNextThread c true
    rw [hc] at hst
    simp only [if_neg hne] at hst
    rcases hr : s.kiGetNextThread c true with ⟨s₁, o⟩
    rw [hr] at hin hfr hst
    cases o with
    | none => cases hst
    | some next =>
      have hse := hin.setNextThread next
      have hnext : ((s₁.setNextThread c next).scheduler c).nextThread = some next := by
        rw [SchedSystem.setNextThread, next_setScheduler, if_pos rfl]
      have hc' : ((s₁.setNextThread c next).scheduler c).currentThread = some t := by
        rw [SchedSystem.setNextThread, current_setScheduler, if_pos rfl, hfr.current, hc]
      dsimp only at hst
      split at hst
      · next htr =>
          cases hst
          exact ⟨Q', .inr ⟨next, hse.setDeleteDpc hc' htr, hnext⟩⟩
      · cases hst
        exact ⟨Q', .inr ⟨next, hse, hnext⟩⟩

theorem kiHandleQuantumEnd (hst : s.kiHandleQuantumEnd c = some s') :
    ∃ Q', SchedInv exact w listed s' Q' none none := by
  obtain ⟨s₁, hy, rfl⟩ := map_eq_some_iff.1 hst
  obtain ⟨Q', ⟨hin, hnext⟩ | ⟨t, hin, hnext⟩⟩ := h.kiPerformYield ha hy
  · rw [hnext]
    exact ⟨Q', hin⟩
  · rw [hnext]
    exact ⟨Q', hin.kiSwitchToNextThread⟩

end

theorem leaveRunning_cases {st : SchedStatus} (hst : s.leaveRunning c st = some s') :
    ∃ t, (s.scheduler c).currentThread = some t ∧ (s.thread t).status = .running ∧
      (s.setThread t { s.thread t with status := st }).kiHandleQuantumEnd c = some s' := by
  unfold SchedSystem.leaveRunning at hst
  split at hst
  · cases hst
  · next t hc =>
      split at hst
      · next ht => exact ⟨t, hc, ht, hst⟩
      · cases hst

omit [DecidableEq P] in
theorem setStatus {st : SchedStatus} (h : SchedInv exact w listed s Q none none)
    (hcr : (s.scheduler c).currentThread = some t) (ht : (s.thread t).status = .running)
    (hst : st = .waiting ∨ st = .terminated) :
    SchedInv exact w listed (s.setThread t { s.thread t with status := st }) Q (some c) none := by
  have hme := h.not_members (t := t) (by simp [ht])
  refine (h.weaken c).change (t := t) (h.core.setThread_same rfl rfl) (fun p => ⟨rfl, rfl⟩) rfl
    (fun u hu => ?_) ?_ nofun (fun p hp hc => ?_) ?_ id fun _ => h.held c t hcr
  · simp [hu]
  · rcases hst with rfl | rfl
    · simp [hme]
    · simp [hme]
  · exact absurd (congrArg some (h.alone c p t hcr hc)) hp
  · simp [ht]

theorem leaveRunning {st : SchedStatus} (h : SchedInv exact w listed s Q none none)
    (hss : st = .waiting ∨ st = .terminated)
    (hst : s.leaveRunning c st = some s') : ∃ Q', SchedInv exact w listed s' Q' none none := by
  obtain ⟨t, hc, ht, he⟩ := leaveRunning_cases hst
  refine (h.setStatus hc ht hss).kiHandleQuantumEnd (.inr ⟨rfl, t, hc, ?_⟩) he
  rcases hss with rfl | rfl
  · simp
  · simp

omit [DecidableEq P] in
theorem kepCleanUpThread (h : SchedInv exact w listed s Q none none) (ht : s.deleteDpc t = true) :
    SchedInv exact w (update listed t false) (s.kepCleanUpThread t) Q none none := by
  have htr := (h.dpc t ht).1
  refine ⟨⟨h.core.queued, h.core.priority, h.core.resting, h.core.bound, h.core.books⟩, h.ready_iff,
    h.apart, h.running, h.alone, h.next, fun u hu => ?_, fun p u hu => ?_, fun u hu => ?_⟩
  · have hut : u ≠ t := by
      rintro rfl
      rcases hu with hu | hu
      · exact absurd (htr.symm.trans hu) nofun
      · exact absurd (htr.symm.trans hu) nofun
    rw [update_of_ne hut]
    exact h.live u hu
  · have hut : u ≠ t := by
      rintro rfl
      exact absurd (htr.symm.trans (h.running p u nofun hu)) nofun
    rw [update_of_ne hut]
    exact h.held p u hu
  · by_cases hut : u = t
    · subst hut
      simp [SchedSystem.kepCleanUpThread] at hu
    · rw [update_of_ne hut]
      exact h.dpc u (by simpa [SchedSystem.kepCleanUpThread, hut] using hu)

/-! ## The global list -/

theorem global_putBack (s : SchedSystem P T) (c : P) (t : T) : (s.putBack c t).global = s.global := by
  by_cases hsu : (s.thread t).suspended = true
  · simp only [SchedSystem.putBack, hsu]
    rfl
  · simp only [SchedSystem.putBack, if_neg hsu]
    rfl

theorem global_kiEndThreadQuantum (h : SchedInv exact w listed s Q away none) (c : P) :
    (s.kiEndThreadQuantum c).global = s.global := by
  obtain ⟨-, -, hfr⟩ := h.kiGetNextThread c false
  unfold SchedSystem.kiEndThreadQuantum
  rcases hr : s.kiGetNextThread c false with ⟨s', o⟩
  rw [hr] at hfr
  cases o with
  | none => exact hfr.global
  | some next =>
    cases (s.scheduler c).currentThread with
    | none => exact hfr.global
    | some t => exact (global_putBack _ c t).trans hfr.global

theorem global_kiHandleQuantumEnd (h : SchedInv exact w listed s Q away none)
    (hst : s.kiHandleQuantumEnd c = some s') : s'.global = s.global := by
  obtain ⟨s₁, hy, rfl⟩ := map_eq_some_iff.1 hst
  have hgl : s₁.global = s.global := by
    unfold SchedSystem.kiPerformYield at hy
    split at hy
    · cases hy
      exact h.global_kiEndThreadQuantum c
    · split at hy
      · cases hy
        exact h.global_kiEndThreadQuantum c
      · obtain ⟨-, -, hfr⟩ := h.kiGetNextThread c true
        rcases hr : s.kiGetNextThread c true with ⟨s', o⟩
        rw [hr] at hfr hy
        cases o with
        | none => cases hy
        | some next =>
          dsimp only at hy
          split at hy
          · cases hy
            exact hfr.global
          · cases hy
            exact hfr.global
  split
  · exact hgl
  · exact hgl

theorem global_leaveRunning {st : SchedStatus} (h : SchedInv exact w listed s Q none none)
    (hss : st = .waiting ∨ st = .terminated)
    (hst : s.leaveRunning c st = some s') : s'.global = s.global := by
  obtain ⟨t, hc, ht, he⟩ := leaveRunning_cases hst
  exact (h.setStatus hc ht hss).global_kiHandleQuantumEnd he

end SchedInv

/-! ## Runs -/

namespace SchedHistory

open SchedSystem

/-- `KiSetPriorityThread` is called on a thread that was never queued, or that is in a queue of the
calling processor. -/
def SetsOwnPriority (h : SchedHistory P T) : SchedAction P T → Prop
  | .setPriority c t _ => h.system.queues.isEmpty (.entry t) = true ∨ h.system.QueuedOn c t
  | _ => True

/-- `KiSetPriorityThread` is called on a thread that was never queued, or that is in a queue. -/
def SetsQueuedPriority (h : SchedHistory P T) : SchedAction P T → Prop
  | .setPriority _ t _ =>
    h.system.queues.isEmpty (.entry t) = true ∨ (h.system.thread t).status = .ready
  | _ => True

/-- `KiReadyThread` does not get a thread that is on the global list. -/
def ReadiesOnce (h : SchedHistory P T) (a : SchedAction P T) : Prop :=
  ∀ t, readies h.system a = some t → h.listed t = false

variable {exact : Bool} {h h' : SchedHistory P T} {Q : P → Nat → List T} {a : SchedAction P T}

/-- The invariant of a history, outside of every step. -/
def Inv (exact : Bool) (h : SchedHistory P T) : Prop :=
  ∃ Q, SchedInv exact h.wakes h.listed h.system Q none none

theorem inv_step (hin : Inv exact h) (hok : h.SetsQueuedPriority a)
    (he : exact = true → h.SetsOwnPriority a) (hst : h.step a = some h') : Inv exact h' := by
  obtain ⟨Q, hin⟩ := hin
  obtain ⟨s, hs, rfl⟩ := map_eq_some_iff.1 hst
  unfold Inv
  cases a with
  | init c t prio aff =>
    simp only [SchedSystem.step] at hs
    split at hs
    · next hc =>
        cases hs
        exact ⟨Q, hin.kiInitializeThread hc.1 c hc.2 aff⟩
    · cases hs
  | ready c t =>
    simp only [SchedSystem.step] at hs
    split at hs
    · next hc =>
        cases hs
        exact hin.kiReadyThread hc c
    · cases hs
  | setPriority c t prio =>
    simp only [SchedSystem.step] at hs
    split at hs
    · next hc =>
        cases hs
        exact hin.kiSetPriorityThread hc.2 hok he
    · cases hs
  | setSuspended c t b =>
    simp only [SchedSystem.step] at hs
    split at hs
    · cases hs
      have hsu := hin.kiSetSuspendedThread c t b
      cases hr : readies h.system (.setSuspended c t b) with
      | none =>
        rw [hr] at hsu
        simpa only [listedAfter, wakesAfter, hr] using hsu
      | some u =>
        rw [hr] at hsu
        simpa only [listedAfter, wakesAfter, hr] using hsu
    · cases hs
  | quantumEnd c => exact hin.kiHandleQuantumEnd (.inl rfl) hs
  | wait c => exact hin.leaveRunning (.inl rfl) hs
  | unwait t inc =>
    simp only [SchedSystem.step] at hs
    split at hs
    · next hc =>
        cases hs
        exact hin.kiUnwaitThread hc inc
    · cases hs
  | terminate c => exact hin.leaveRunning (.inr rfl) hs
  | cleanUp t =>
    simp only [SchedSystem.step] at hs
    split at hs
    · next hc =>
        cases hs
        exact ⟨Q, hin.kepCleanUpThread hc⟩
    · cases hs

omit [DecidableEq P] [DecidableEq T] in
theorem core_boot (exact : Bool) (pro : List P) (first : P) :
    (SchedSystem.boot pro first : SchedSystem P T).Core exact (fun _ => 0) (fun _ _ => []) := by
  refine ⟨⟨fun p k => ?_, ⟨fun _ _ => nodup_nil, nofun⟩⟩, nofun, fun _ _ => rfl,
    fun _ => by simp [boot, priorityCount], fun _ => ⟨fun p k _ => ?_, fun p => ?_⟩⟩
  · exact IsDList.empty
  · simp [boot, masks]
  · simp [boot, counts, total]

omit [DecidableEq P] [DecidableEq T] in
theorem inv_start (exact : Bool) (pro : List P) (first : P) :
    Inv exact (start pro first : SchedHistory P T) := by
  refine ⟨fun _ _ => [], core_boot exact pro first, fun t => ?_, nofun, nofun, nofun,
    fun _ _ => rfl, nofun, nofun, nofun⟩
  simp [start, boot, Members]

/-! ### The bookkeeping of the ready queues -/

theorem inv_of_reaches (pro : List P) (first : P)
    (hr : Reaches step SetsOwnPriority (start pro first) h) : Inv true h := by
  refine hr.invariant (inv_start true pro first) fun h a h' hin hok hst => ?_
  refine inv_step hin ?_ (fun _ => hok) hst
  obtain ⟨Q, hin⟩ := hin
  cases a with
  | setPriority c t prio =>
    rcases hok with he | hq
    · exact .inl he
    · obtain ⟨k, hk⟩ := hin.mem_of_queuedOn hq
      exact .inr ((hin.ready_iff t).2 (.inl ⟨c, k, hk⟩))
  | _ => trivial

omit [DecidableEq P] [DecidableEq T] in
/-- The masks and the places of the threads are right anyway; the counts miss the threads that were
woken. -/
theorem readyQueuesOk_iff_of_inv (hin : Inv true h) : h.system.ReadyQueuesOk ↔ ∀ p, h.wakes p = 0 := by
  obtain ⟨Q, hin⟩ := hin
  have hb := hin.core.books rfl
  constructor
  · rintro ⟨Q', hok⟩ p
    have hsm : total Q' p = total Q p := by
      refine Finset.sum_congr rfl fun k hk => ?_
      have hrn := ((hok p).1 k (Finset.mem_range.1 hk)).1
      have heq := hrn.unique (hin.core.queued.ring p k)
      simpa using congrArg List.length heq
    have hcount := hb.count p
    have hok' := (hok p).2.1
    rw [hsm] at hok'
    unfold counts at hcount
    omega
  · intro hw
    refine ⟨Q, fun p => ⟨fun k hk => ⟨hin.core.queued.ring p k, hb.mask p k hk, fun t ht =>
      hin.core.priority ht⟩, ?_⟩⟩
    have hcount := hb.count p
    rw [hw p] at hcount
    unfold counts at hcount
    omega

/-- **The ready queues and their books.** In every run in which `KiSetPriorityThread` is only called on
threads that were never queued or are in a queue of the calling processor, the masks, the counts and
the places of the threads agree exactly as long as `KiUnwaitThread` has not woken a thread. -/
theorem readyQueues_iff (processors : List P) (first : P)
    (hr : Reaches step SetsOwnPriority (start processors first) h) :
    h.system.ReadyQueuesOk ↔ ∀ p, h.wakes p = 0 :=
  readyQueuesOk_iff_of_inv (inv_of_reaches processors first hr)

/-- A test that implies both contracts on priorities. -/
def fresh (h : SchedHistory P T) : SchedAction P T → Bool
  | .setPriority _ t _ => h.system.queues.isEmpty (.entry t)
  | _ => true

theorem setsOwnPriority_of_fresh (h : SchedHistory P T) (a : SchedAction P T)
    (ha : fresh h a = true) : h.SetsOwnPriority a := by
  cases a with
  | setPriority c t prio => exact .inl ha
  | _ => trivial

/-- One processor, its idle thread and two threads that take turns. -/
def turns (idle a b : Fin 3) : List (SchedAction Unit (Fin 3)) :=
  [.init () idle 8 fun _ => true, .setPriority () idle 0, .ready () idle, .quantumEnd (),
    .init () b 8 fun _ => true, .ready () b, .init () a 8 fun _ => true, .ready () a,
    .quantumEnd (), .quantumEnd ()]

theorem readyQueues_iff_sample :
    ∃ h : SchedHistory Unit (Fin 3), Reaches step SetsOwnPriority (start [()] ()) h ∧
      (h.system.scheduler ()).currentThread = some 1 ∧ h.system.ReadyQueuesOk := by
  obtain ⟨h, hrn, hts⟩ := (Option.any_eq_true _ _).1 (show (runChecked step fresh (turns 0 1 2)
    (start [()] ())).any (fun h => (h.system.scheduler ()).currentThread = some 1 ∧
      h.wakes () = 0) = true by decide +kernel)
  have hc := Reaches.of_runChecked setsOwnPriority_of_fresh hrn
  have he := of_decide_eq_true hts
  exact ⟨h, hc, he.1, (readyQueues_iff [()] () hc).2 fun _ => he.2⟩

/-- The thread is alone with the idle thread, waits and is woken: it is in a queue that is counted
as empty. -/
theorem woken_thread_not_counted :
    ∃ h : SchedHistory Unit (Fin 3), Reaches step (fun _ _ => True) (start [()] ()) h ∧
      ¬ h.system.ReadyQueuesOk := by
  obtain ⟨h, hrn, hts⟩ := (Option.any_eq_true _ _).1 (show (runChecked step fresh
    [.init () 0 0 fun _ => true, .ready () 0, .quantumEnd (), .init () 1 8 fun _ => true,
      .ready () 1, .quantumEnd (), .wait (), .unwait 1 0]
    (start [()] () : SchedHistory Unit (Fin 3))).any (fun h => h.wakes () = 1) = true by
      decide +kernel)
  have hc := Reaches.of_runChecked setsOwnPriority_of_fresh hrn
  refine ⟨h, hc.mono fun _ _ _ => trivial, fun hok => ?_⟩
  have hz := (readyQueuesOk_iff_of_inv (inv_of_reaches [()] () hc)).1 hok ()
  rw [of_decide_eq_true hts] at hz
  cases hz

/-! ### Thread lists -/

/-- The global list has the listed threads. -/
def GlobalOk (h : SchedHistory P T) : Prop :=
  ∃ l : List T, h.system.global.Ring .head (l.map .entry) ∧ ∀ t, t ∈ l ↔ h.listed t = true

omit [DecidableEq P] in
theorem globalOk_insert {s : SchedSystem P T} {listed : T → Bool} {t : T} {l : List T}
    (hrn : s.global.Ring .head (l.map .entry)) (hl : ∀ u, u ∈ l ↔ listed u = true)
    (ht : listed t = false) :
    ∃ l' : List T, (s.global.insertTail .head (.entry t)).Ring .head (l'.map .entry) ∧
      ∀ u, u ∈ l' ↔ update listed t true u = true := by
  have hme : t ∉ l := by simp [hl, ht]
  refine ⟨l ++ [t], ?_, fun u => ?_⟩
  · rw [map_append]
    exact hrn.insertTail (by simpa using hme)
  · by_cases hu : u = t
    · simp [hu]
    · simp [hu, hl]

omit [DecidableEq P] in
theorem globalOk_remove {s : SchedSystem P T} {listed : T → Bool} {t : T} {l : List T}
    (hrn : s.global.Ring .head (l.map .entry)) (hl : ∀ u, u ∈ l ↔ listed u = true)
    (ht : listed t = true) :
    ∃ l' : List T, (s.global.remove (.entry t)).Ring .head (l'.map .entry) ∧
      ∀ u, u ∈ l' ↔ update listed t false u = true := by
  have hme : t ∈ l := (hl t).2 ht
  have hnd : l.Nodup := Nodup.of_map _ hrn.nodup
  refine ⟨l.erase t, ?_, fun u => ?_⟩
  · rw [map_erase (fun _ _ h => GlobalNode.entry.inj h)]
    exact hrn.remove (List.mem_map_of_mem hme)
  · rw [hnd.mem_erase_iff]
    by_cases hu : u = t
    · simp [hu]
    · simp [hu, hl]

theorem globalOk_setSuspended {s : SchedSystem P T} {listed : T → Bool} {c : P} {t : T} {b : Bool}
    {l : List T} (hrn : s.global.Ring .head (l.map .entry)) (hl : ∀ u, u ∈ l ↔ listed u = true)
    (ht : readies s (.setSuspended c t b) = some t → listed t = false) :
    ∃ l' : List T, (s.kiSetSuspendedThread c t b).global.Ring .head (l'.map .entry) ∧
      ∀ u, u ∈ l' ↔ (match readies s (.setSuspended c t b) with
        | some t => update listed t true
        | none => listed) u = true := by
  by_cases hsm : (s.thread t).suspended = b
  · have hnn : readies s (.setSuspended c t b) = none := by
      cases b <;> simp [readies, hsm]
    rw [SchedSystem.kiSetSuspendedThread, if_pos hsm, hnn]
    exact ⟨l, hrn, hl⟩
  · rw [SchedSystem.kiSetSuspendedThread, if_neg hsm]
    cases b with
    | true => exact ⟨l, hrn, hl⟩
    | false =>
      have htt : (s.thread t).suspended = true := by simpa using hsm
      by_cases hin : (s.thread t).status = .initialized
      · have hr : readies s (.setSuspended c t false) = some t := by simp [readies, htt, hin]
        rw [hr]
        simp only [Bool.not_false, Bool.true_and, thread_setThread, update_self, hin,
          decide_true, if_true]
        exact globalOk_insert hrn hl (ht hr)
      · have hr : readies s (.setSuspended c t false) = none := by simp [readies, hin]
        rw [hr]
        simp only [Bool.not_false, Bool.true_and, thread_setThread, update_self, hin,
          decide_false, Bool.false_eq_true, if_false]
        exact ⟨l, hrn, hl⟩

theorem globalOk_step (hin : Inv exact h) (hgl : GlobalOk h) (hok : h.ReadiesOnce a)
    (hst : h.step a = some h') : GlobalOk h' := by
  obtain ⟨Q, hin⟩ := hin
  obtain ⟨l, hrn, hl⟩ := hgl
  obtain ⟨s, hs, rfl⟩ := map_eq_some_iff.1 hst
  unfold GlobalOk
  cases a with
  | init c t prio aff =>
    simp only [SchedSystem.step] at hs
    split at hs
    · cases hs
      exact ⟨l, hrn, hl⟩
    · cases hs
  | ready c t =>
    simp only [SchedSystem.step] at hs
    split at hs
    · cases hs
      exact globalOk_insert hrn hl (hok t rfl)
    · cases hs
  | setPriority c t prio =>
    simp only [SchedSystem.step] at hs
    split at hs
    · cases hs
      refine ⟨l, ?_, hl⟩
      rw [(SchedInv.frame_kiSetPriorityThread h.system c t prio).global]
      exact hrn
    · cases hs
  | setSuspended c t b =>
    simp only [SchedSystem.step] at hs
    split at hs
    · cases hs
      have hgl := globalOk_setSuspended (c := c) (b := b) hrn hl (hok t)
      cases hr : readies h.system (.setSuspended c t b) with
      | none =>
        rw [hr] at hgl
        simpa only [listedAfter, hr] using hgl
      | some u =>
        rw [hr] at hgl
        simpa only [listedAfter, hr] using hgl
    · cases hs
  | quantumEnd c =>
    refine ⟨l, ?_, hl⟩
    rw [hin.global_kiHandleQuantumEnd hs]
    exact hrn
  | wait c =>
    refine ⟨l, ?_, hl⟩
    rw [hin.global_leaveRunning (.inl rfl) hs]
    exact hrn
  | unwait t inc =>
    simp only [SchedSystem.step] at hs
    split at hs
    · cases hs
      exact ⟨l, hrn, hl⟩
    · cases hs
  | terminate c =>
    refine ⟨l, ?_, hl⟩
    rw [hin.global_leaveRunning (.inr rfl) hs]
    exact hrn
  | cleanUp t =>
    simp only [SchedSystem.step] at hs
    split at hs
    · next hc =>
        cases hs
        exact globalOk_remove hrn hl (hin.dpc t hc).2
    · cases hs

omit [DecidableEq P] [DecidableEq T] in
theorem globalOk_start (pro : List P) (first : P) : GlobalOk (start pro first : SchedHistory P T) :=
  ⟨[], IsDList.empty, by simp [start]⟩

omit [DecidableEq P] in
theorem threadListsOk_of_inv (hin : Inv exact h) (hgl : GlobalOk h) : h.ThreadListsOk := by
  obtain ⟨Q, hin⟩ := hin
  obtain ⟨l, hrn, hl⟩ := hgl
  refine ⟨⟨Q, fun p k _ => hin.core.queued.ring p k, fun t => ?_⟩, hin.alone, l, hrn, fun t ht => ?_⟩
  · split
    · next hrd =>
        obtain ⟨p, k, ht⟩ : Members Q t := by simpa using (hin.ready_iff t).1 hrd
        have hcount : (Q p k).count t = 1 :=
          count_eq_one_of_mem (hin.core.queued.apart.nodup p k) ht
        refine ⟨(p, k), ⟨hin.core.lt_of_mem ht, hcount⟩, fun pk hpk => ?_⟩
        have ht' : t ∈ Q pk.1 pk.2 := count_pos_iff.1 (by omega)
        obtain ⟨hp, hk⟩ := hin.core.queued.apart.one ht' ht
        exact Prod.ext hp hk
    · next hrd => exact fun p k _ ht => hrd ((hin.ready_iff t).2 (.inl ⟨p, k, ht⟩))
  · exact count_eq_one_of_mem (Nodup.of_map _ hrn.nodup) ((hl t).2 ht)

/-- **Thread states and lists.** In every run in which `KiSetPriorityThread` is only called on threads
that were never queued or are in a queue, and no thread goes through `KiReadyThread` a second time,
every thread is in the lists that its state says. -/
theorem threadLists_ok (processors : List P) (first : P)
    (hr : Reaches step (fun h a => h.SetsQueuedPriority a ∧ h.ReadiesOnce a)
      (start processors first) h) : h.ThreadListsOk := by
  have hb : Inv false h ∧ GlobalOk h :=
    hr.invariant (I := fun h => Inv false h ∧ GlobalOk h)
      ⟨inv_start false processors first, globalOk_start processors first⟩ fun h a h' hI hok hst =>
        ⟨inv_step hI.1 hok.1 nofun hst, globalOk_step hI.1 hI.2 hok.2 hst⟩
  exact threadListsOk_of_inv hb.1 hb.2

/-- A test that implies the contracts of `threadLists_ok`. -/
def orderly (h : SchedHistory P T) (a : SchedAction P T) : Bool :=
  fresh h a && (readies h.system a).all fun t => !h.listed t

theorem contract_of_orderly (h : SchedHistory P T) (a : SchedAction P T)
    (ha : orderly h a = true) : h.SetsQueuedPriority a ∧ h.ReadiesOnce a := by
  obtain ⟨hfr, hon⟩ := Bool.and_eq_true_iff.1 ha
  constructor
  · cases a with
    | setPriority c t prio => exact .inl hfr
    | _ => trivial
  · intro t ht
    simpa [ht] using hon

theorem threadLists_ok_sample : ∃ h : SchedHistory Unit (Fin 3),
      Reaches step (fun h a => h.SetsQueuedPriority a ∧ h.ReadiesOnce a) (start [()] ()) h ∧
      (h.system.scheduler ()).currentThread = some 0 ∧ h.ThreadListsOk := by
  obtain ⟨h, hrn, hts⟩ := (Option.any_eq_true _ _).1 (show (runChecked step orderly
    (turns 0 1 2 ++ [.wait (), .unwait 1 0, .terminate (), .terminate (), .cleanUp 2, .cleanUp 1])
    (start [()] ())).any (fun h => (h.system.scheduler ()).currentThread = some 0) = true by
      decide +kernel)
  have hc := Reaches.of_runChecked contract_of_orderly hrn
  exact ⟨h, hc, of_decide_eq_true hts, threadLists_ok [()] () hc⟩

/-- A thread is suspended, leaves the processor, and is resumed: the last entry of the global list is
put at its end again, and points to itself. -/
theorem resumed_thread_listed_twice :
    ∃ h : SchedHistory Unit (Fin 3), Reaches step (fun _ _ => True) (start [()] ()) h ∧
      ¬ h.ThreadListsOk := by
  obtain ⟨h, hru, hts⟩ := (Option.any_eq_true _ _).1 (show (runChecked step (fun _ _ => true)
    (turns 0 1 2 ++ [.setSuspended () 1 true, .quantumEnd (), .setSuspended () 1 false])
    (start [()] ())).any (fun h => h.system.global.next (.entry 1) = .entry 1 ∧
      h.listed 1 = true) = true by decide +kernel)
  refine ⟨h, Reaches.of_runChecked (fun _ _ _ => trivial) hru, fun hok => ?_⟩
  obtain ⟨hsl, hls⟩ := of_decide_eq_true hts
  obtain ⟨l, hrn, hl⟩ := hok.global
  have hme : (1 : Fin 3) ∈ l := count_pos_iff.1 (by rw [hl 1 hls]; decide)
  exact hrn.next_ne_self (List.mem_map_of_mem hme) hsl

end SchedHistory

end Boron.Ke
