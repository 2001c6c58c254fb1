import Boron.Ke.SchedLists

/-! # What `KiGetNextThread` picks

A `Board` is the queues and the masks of all processors as the lists that the links stand for. On the
board each of the six attempts of `KiGetNextThread` is a `Hit` or nothing, the bulk steal before them
cuts every queue of the crowded processor in two, and the thread that is picked is that of the first
hit. From this follows when the attempts together find work for a processor. -/

namespace Boron.Ke

open Function List Option

variable {P T : Type}

/-! ## The board -/

/-- The ready queues and the masks, as lists. -/
@[ext]
structure Board (P T : Type) where
  queues : P → Nat → List T
  mask : P → BitVec 32

/-- A thread that an attempt would take, with the queue that it is the first of. -/
structure Hit (P T : Type) where
  processor : P
  priority : Nat
  thread : T
  deriving DecidableEq

/-- The first thread of the first of the queues `ks` that is not empty. -/
def firstOf (q : Nat → List T) : List Nat → Option (Nat × T)
  | [] => none
  | k :: ks =>
    match q k with
    | [] => firstOf q ks
    | t :: _ => some (k, t)

/-- The priorities that `KepPopNextThreadIfNeeded` goes through. -/
def priorities (minPriority : Nat) : List Nat :=
  (List.range' minPriority (priorityCount - minPriority)).reverse

/-- The thread that `KepPopNextThreadIfNeeded` looks at. -/
def topFrom (q : Nat → List T) (minPriority : Nat) : Option (Nat × T) :=
  firstOf q (priorities minPriority)

section

variable {q : Nat → List T} {m k : Nat} {t : T} {ks : List Nat}

theorem filter_le_some (x : Nat × T) :
    ((some x).filter fun x => m ≤ x.1) = if m ≤ x.1 then some x else none := by
  simp only [filter_some, decide_eq_true_eq]

theorem mem_priorities : k ∈ priorities m ↔ m ≤ k ∧ k < priorityCount := by
  simp only [priorities, mem_reverse, mem_range'_1]
  omega

/-- The priorities from a higher minimum on are tried first. -/
theorem priorities_append (h : m ≤ k) (hk : k ≤ priorityCount) :
    ∃ ks, priorities m = priorities k ++ ks ∧ ∀ j ∈ ks, j < k := by
  refine ⟨(List.range' m (k - m)).reverse, ?_, fun j hj => ?_⟩
  · rw [priorities, priorities, ← reverse_append]
    congr 1
    have hsm : priorityCount - m = (k - m) + (priorityCount - k) := by omega
    have hmd : m + 1 * (k - m) = k := by omega
    rw [hsm, ← range'_append, hmd]
  · rw [mem_reverse, mem_range'_1] at hj
    omega

theorem firstOf_append (ks' : List Nat) :
    firstOf q (ks ++ ks') = (firstOf q ks).or (firstOf q ks') := by
  induction ks with
  | nil => rfl
  | cons k ks ih =>
    rw [cons_append, firstOf, firstOf]
    cases q k with
    | nil => exact ih
    | cons t l => rfl

theorem firstOf_eq_none : firstOf q ks = none ↔ ∀ k ∈ ks, q k = [] := by
  induction ks with
  | nil => simp [firstOf]
  | cons k ks ih =>
    rw [firstOf]
    cases hk : q k with
    | nil => simp [ih, hk]
    | cons t l => simp [hk]

theorem firstOf_some (h : firstOf q ks = some (k, t)) : k ∈ ks ∧ ∃ l, q k = t :: l := by
  induction ks with
  | nil => cases h
  | cons i ks ih =>
    rw [firstOf] at h
    cases hi : q i with
    | nil =>
      rw [hi] at h
      obtain ⟨hme, hl⟩ := ih h
      exact ⟨mem_cons_of_mem i hme, hl⟩
    | cons u l =>
      rw [hi] at h
      cases h
      exact ⟨mem_cons_self, l, hi⟩

theorem topFrom_some (h : topFrom q m = some (k, t)) :
    m ≤ k ∧ k < priorityCount ∧ ∃ l, q k = t :: l := by
  obtain ⟨hme, hl⟩ := firstOf_some h
  exact ⟨(mem_priorities.1 hme).1, (mem_priorities.1 hme).2, hl⟩

/-- What is found from a minimum on is what is found from zero on, if it is high enough. -/
theorem topFrom_eq_filter (q : Nat → List T) (m : Nat) :
    topFrom q m = (topFrom q 0).filter fun x => m ≤ x.1 := by
  by_cases hm : m ≤ priorityCount
  · obtain ⟨ks, ha, hw⟩ := priorities_append (Nat.zero_le m) hm
    have hz : topFrom q 0 = (topFrom q m).or (firstOf q ks) := by
      rw [topFrom, ha, firstOf_append]
      rfl
    cases hp : topFrom q m with
    | some x =>
      have hle : m ≤ x.1 := (topFrom_some hp).1
      rw [hz, hp, some_or, filter_le_some, if_pos hle]
    | none =>
      rw [hz, hp, none_or]
      cases hrs : firstOf q ks with
      | none => rfl
      | some x =>
        have hlt : x.1 < m := hw x.1 (firstOf_some hrs).1
        rw [filter_le_some, if_neg (by omega)]
  · have hnn : topFrom q m = none := by
      refine firstOf_eq_none.2 fun k hk => ?_
      obtain ⟨hle, hlt⟩ := mem_priorities.1 hk
      omega
    rw [hnn]
    cases hp : topFrom q 0 with
    | none => rfl
    | some x =>
      have hlt : x.1 < priorityCount := (topFrom_some hp).2.1
      rw [filter_le_some, if_neg (by omega)]

/-- No queue above the one that is found has a thread. -/
theorem le_of_topFrom (h : topFrom q 0 = some (k, t)) {j : Nat} {u : T} (hj : j < priorityCount)
    (hu : u ∈ q j) : j ≤ k := by
  by_contra hlt
  have ha : topFrom q j = none := by
    rw [topFrom_eq_filter, h, filter_le_some, if_neg hlt]
  rw [firstOf_eq_none.1 ha j (mem_priorities.2 ⟨le_rfl, hj⟩)] at hu
  exact not_mem_nil hu

end

section

variable [DecidableEq P]

/-- The threads of one queue that `KepStealManyThreads` moves, all at once. -/
def Board.moveQueue (b : Board P T) (their own : P) (i left : Nat) : Board P T :=
  if left = 0 ∨ b.queues their i = [] then b
  else
    { queues := put (put b.queues their i ((b.queues their i).drop left)) own i
        (b.queues own i ++ (b.queues their i).take left)
      mask := update (update b.mask their
          (if (b.queues their i).length ≤ left then b.mask their &&& ~~~ queueBit i
            else b.mask their))
        own (b.mask own ||| queueBit i) }

/-- The queues after `KepStealManyThreads`: from the highest priority down, while there is something
left to steal. -/
def Board.share (their own : P) : Nat → Nat → Board P T → Board P T
  | 0, _, b => b
  | i + 1, left, b =>
    Board.share their own i (left - (b.queues their (i + 1)).length)
      (b.moveQueue their own (i + 1) left)

variable {b : Board P T} {their own p : P} {i j left : Nat} {t u : T} {l : List T}

theorem Board.moveQueue_zero : b.moveQueue their own i 0 = b := if_pos (.inl rfl)

theorem Board.moveQueue_of_nil (h : b.queues their i = []) : b.moveQueue their own i left = b :=
  if_pos (.inr h)

theorem Board.mask_moveQueue (hlf : left ≠ 0) (hl : b.queues their i = t :: l)
    (q : P) : (b.moveQueue their own i left).mask q =
      if q = own then b.mask own ||| queueBit i
      else if q = their ∧ l.length < left then b.mask their &&& ~~~ queueBit i
      else b.mask q := by
  have hnt : ¬ (left = 0 ∨ b.queues their i = []) := by
    rw [hl]
    exact fun h => h.elim hlf (cons_ne_nil t l)
  rw [Board.moveQueue, if_neg hnt, hl]
  simp only [update_apply, length_cons, Nat.succ_le_iff]
  by_cases ho : q = own
  · rw [if_pos ho, if_pos ho]
  · rw [if_neg ho, if_neg ho]
    by_cases ht : q = their
    · simp [ht]
    · simp [ht]

theorem Board.queues_moveQueue :
    (b.moveQueue their own i left).queues = put (put b.queues their i ((b.queues their i).drop left))
      own i (b.queues own i ++ (b.queues their i).take left) := by
  have hsm : ∀ q j, ¬ (q = their ∧ j = i) → ¬ (q = own ∧ j = i) →
      put (put b.queues their i (b.queues their i)) own i (b.queues own i) q j = b.queues q j := by
    intro q j h h'
    rw [put_of_ne h', put_of_ne h]
  unfold Board.moveQueue
  split
  · next h =>
      funext q j
      have hdrop : (b.queues their i).drop left = b.queues their i := by
        rcases h with rfl | h
        · rfl
        · rw [h, drop_nil]
      have htk : (b.queues their i).take left = [] := by
        rcases h with rfl | h
        · rfl
        · rw [h, take_nil]
      rw [hdrop, htk, append_nil]
      by_cases hw : q = own ∧ j = i
      · rw [hw.1, hw.2, put_self]
      · by_cases hh : q = their ∧ j = i
        · rw [put_of_ne hw, hh.1, hh.2, put_self]
        · rw [hsm q j hh hw]
  · rfl

/-- One thread after the other, or all at once. -/
theorem Board.moveQueue_succ (hne : their ≠ own) (hl : b.queues their i = t :: l) :
    (b.moveQueue their own i 1).moveQueue their own i left = b.moveQueue their own i (left + 1) := by
  have hon : (b.moveQueue their own i 1).queues = put (put b.queues their i l) own i
      (b.queues own i ++ [t]) := by
    rw [Board.queues_moveQueue, hl]
    rfl
  have hh : (b.moveQueue their own i 1).queues their i = l := by
    rw [hon, put_of_ne fun h => hne h.1, put_self]
  have hw : (b.moveQueue their own i 1).queues own i = b.queues own i ++ [t] := by
    rw [hon, put_self]
  ext1
  · rw [Board.queues_moveQueue, hh, hw, hon, Board.queues_moveQueue, hl]
    funext q j
    by_cases ho : q = own ∧ j = i
    · rw [ho.1, ho.2, put_self, put_self]
      simp
    · rw [put_of_ne ho, put_of_ne ho]
      by_cases ht : q = their ∧ j = i
      · rw [ht.1, ht.2, put_self, put_self, drop_succ_cons]
      · rw [put_of_ne ht, put_of_ne ho, put_of_ne ht, put_of_ne ht]
  · rcases Nat.eq_zero_or_pos left with rfl | hpos
    · rw [Board.moveQueue_zero]
    · cases l with
      | nil =>
        rw [Board.moveQueue_of_nil hh]
        simp [Board.moveQueue, hl]
      | cons u l =>
        funext q
        rw [Board.mask_moveQueue (Nat.succ_ne_zero left) hl, Board.mask_moveQueue (by omega) hh]
        simp only [Board.mask_moveQueue Nat.one_ne_zero hl]
        by_cases ho : q = own
        · simp [ho, BitVec.or_assoc]
        · by_cases ht : q = their
          · simp [ht, hne]
          · simp [ho, ht]

/-- A bulk steal moves nothing out of the queues of the processor that steals. -/
theorem Board.mem_share (hu : u ∈ b.queues own j) :
    u ∈ (Board.share their own i left b).queues own j := by
  induction i generalizing b left with
  | zero => exact hu
  | succ i ih =>
    refine ih ?_
    rw [Board.queues_moveQueue]
    by_cases hj : j = i + 1
    · subst hj
      rw [put_self]
      exact mem_append_left _ hu
    · rw [put_of_ne fun h => hj h.2, put_of_ne fun h => hj h.2]
      exact hu

end

/-! ## Hits -/

/-- The processor may take thread `t` off a queue. -/
def mayTake (thread : T → SchedThread P) (c : P) (otherProcessor : Bool) (t : T) : Bool :=
  (thread t).affinity c && !((thread t).dontSteal && otherProcessor)

/-- What `KepPopNextThreadIfNeeded` takes on processor `c` from the queues of `p`. -/
def hit [DecidableEq P] (thread : T → SchedThread P) (b : Board P T) (c p : P) (minPriority : Nat)
    (otherProcessor : Bool) : Option (Hit P T) :=
  if otherProcessor ∧ (b.mask p < queueBit minPriority ∨ minPriority = 0) then none
  else
    ((topFrom (b.queues p) minPriority).filter fun x => mayTake thread c otherProcessor x.2).map
      fun x => ⟨p, x.1, x.2⟩

namespace SchedSystem

variable [DecidableEq P] [DecidableEq T]

/-- The queues and the masks of the processors are those of the board. -/
structure Shows (s : SchedSystem P T) (b : Board P T) : Prop where
  queued : Queued s.queues b.queues
  masks : ∀ p, s.masks p = b.mask p

/-- Take the thread that was found, if any. -/
def took (s : SchedSystem P T) : Option (Hit P T) → SchedSystem P T × Option T
  | none => (s, none)
  | some x => (s.popThread x.processor x.priority x.thread, some x.thread)

/-- The three processors that one call of `KiGetNextThread` steals from, in order. -/
def victim (s : SchedSystem P T) : Nat → Option P
  | 0 => s.kepGetNextProcessorToStealWorkFrom.2
  | i + 1 => victim s.kepGetNextProcessorToStealWorkFrom.1 i

/-- The board after the bulk steal at the start of `KiGetNextThread`. -/
def shared (s : SchedSystem P T) (b : Board P T) (c : P) : Board P T :=
  match s.mostCrowded with
  | none => b
  | some p =>
    if p = c then b
    else b.share p c (priorityCount - 1) ((s.scheduler p).threadsOnQueueCount.tdiv 2).toNat

/-- The base priority of the current thread. -/
def basePriorityOn (s : SchedSystem P T) (c : P) : Nat :=
  match (s.scheduler c).currentThread with
  | some t => (s.thread t).basePriority
  | none => 0

/-- What the processor finds in its own queues. -/
def ownHit (s : SchedSystem P T) (b : Board P T) (c : P) (minPriority : Nat) : Option (Hit P T) :=
  hit s.thread b c c minPriority false

/-- What `KepTryStealThread` finds, the `i`-th time. -/
def stealHit (s : SchedSystem P T) (b : Board P T) (c : P) (i minPriority : Nat) :
    Option (Hit P T) :=
  (s.victim i).bind fun p => hit s.thread b c p (minPriority + 1) true

/-- What the three steals find. -/
def stolen (s : SchedSystem P T) (b : Board P T) (c : P) : Option (Hit P T) :=
  (s.stealHit b c 0 (s.basePriorityOn c + 1)).or
    ((s.stealHit b c 1 (s.basePriorityOn c)).or (s.stealHit b c 2 1))

/-- What the six attempts find. -/
def choice (s : SchedSystem P T) (b : Board P T) (c : P) : Option (Hit P T) :=
  ((((s.ownHit b c (s.basePriorityOn c + 1)).or
    (s.stealHit b c 0 (s.basePriorityOn c + 1))).or
    (s.ownHit b c (s.basePriorityOn c))).or
    (s.stealHit b c 1 (s.basePriorityOn c))).or
    ((s.stealHit b c 2 1).or (s.ownHit b c 0))

section

variable {s : SchedSystem P T} {b : Board P T} {c p their own : P} {i j k left m : Nat} {t : T}
  {l : List T} {ks : List Nat} {other : Bool}

theorem Shows.isEmpty_iff (h : Shows s b) :
    s.queues.isEmpty (.head p k) = true ↔ b.queues p k = [] := h.queued.isEmpty_iff

theorem Shows.popLoop (h : Shows s b) : s.popLoop c p other ks = s.took
      (((firstOf (b.queues p) ks).filter fun x => mayTake s.thread c other x.2).map
        fun x => ⟨p, x.1, x.2⟩) := by
  induction ks with
  | nil => rfl
  | cons k ks ih =>
    rw [SchedSystem.popLoop, firstOf]
    cases hl : b.queues p k with
    | nil =>
      rw [if_pos (h.isEmpty_iff.2 hl)]
      exact ih
    | cons t l =>
      have hne : ¬ s.queues.isEmpty (.head p k) = true := by
        rw [h.isEmpty_iff, hl]
        exact cons_ne_nil t l
      rw [if_neg hne, h.queued.next_head hl]
      rw [filter_some, mayTake]
      cases ha : (s.thread t).affinity c with
      | false => simp [ha, took]
      | true =>
        cases hd : ((s.thread t).dontSteal && other) with
        | true => simp [ha, hd, took]
        | false => simp [ha, hd, took]

theorem Shows.kepPopNextThreadIfNeeded (h : Shows s b) :
    s.kepPopNextThreadIfNeeded c p m other = s.took (hit s.thread b c p m other) := by
  have hms : (s.scheduler p).execQueueMask = b.mask p := h.masks p
  unfold SchedSystem.kepPopNextThreadIfNeeded hit
  rw [hms]
  split
  · rfl
  · exact h.popLoop

/-! ## Turns -/

/-- The state with another processor to steal from next. -/
def turned (s : SchedSystem P T) (n : Nat) : SchedSystem P T := { s with nextToSteal := n }

omit [DecidableEq P] [DecidableEq T] in
theorem kepGetNextProcessorToStealWorkFrom_fst (s : SchedSystem P T) :
    ∃ n, s.kepGetNextProcessorToStealWorkFrom.1 = s.turned n := by
  unfold kepGetNextProcessorToStealWorkFrom
  split
  · exact ⟨s.nextToSteal, rfl⟩
  · exact ⟨_, rfl⟩

omit [DecidableEq P] [DecidableEq T] in
theorem Shows.turned (h : Shows s b) (n : Nat) : Shows (s.turned n) b := ⟨h.queued, h.masks⟩

theorem Shows.kepTryStealThread (h : Shows s b) :
    ∃ n, s.kepGetNextProcessorToStealWorkFrom.1 = s.turned n ∧
      s.kepTryStealThread c m = (s.turned n).took (s.stealHit b c 0 m) := by
  obtain ⟨n, hn⟩ := s.kepGetNextProcessorToStealWorkFrom_fst
  refine ⟨n, hn, ?_⟩
  have hpr : s.kepGetNextProcessorToStealWorkFrom =
      (s.turned n, s.kepGetNextProcessorToStealWorkFrom.2) := Prod.ext hn rfl
  rw [SchedSystem.kepTryStealThread, stealHit, victim]
  cases hp : s.kepGetNextProcessorToStealWorkFrom.2 with
  | none =>
    rw [hpr, hp]
    rfl
  | some p =>
    rw [hpr, hp]
    exact (h.turned n).kepPopNextThreadIfNeeded

omit [DecidableEq T] in
theorem stealHit_turned {n : Nat} (h : (s.turned n).victim 0 = s.victim i) :
    (s.turned n).stealHit b c 0 m = s.stealHit b c i m := by
  rw [stealHit, stealHit, h]
  rfl

/-- The search `r` has found `o`; with nothing found, only the turn has changed, to `n`. -/
def Searched (s : SchedSystem P T) (o : Option (Hit P T)) (n : Nat)
    (r : SchedSystem P T × Option T) : Prop :=
  ∃ k, r = (s.turned k).took o ∧ (o = none → k = n)

theorem Searched.orElse {o o' : Option (Hit P T)} {n n' : Nat} {r : SchedSystem P T × Option T}
    {next : SchedSystem P T → SchedSystem P T × Option T} (hr : Searched s o n r)
    (hnext : Searched s o' n' (next (s.turned n))) : Searched s (o.or o') n' (orElse r next) := by
  obtain ⟨k, rfl, hk⟩ := hr
  cases o with
  | some x => exact ⟨k, rfl, fun h => nomatch h⟩
  | none =>
    rw [hk rfl]
    exact hnext

/-- The attempts one after the other, on a board that none of them changes before it finds
something. -/
theorem Shows.attempts (h : Shows s b) (c : P) :
    ∃ n, Searched s (s.choice b c) n (orElse (orElse (orElse (orElse
      (s.kepPopNextThreadIfNeeded c c (s.basePriorityOn c + 1) false)
      fun s' => s'.kepTryStealThread c (s.basePriorityOn c + 1))
      fun s' => s'.kepPopNextThreadIfNeeded c c (s.basePriorityOn c) false)
      fun s' => s'.kepTryStealThread c (s.basePriorityOn c))
      fun s' => orElse (s'.kepTryStealThread c 1)
        fun s' => s'.kepPopNextThreadIfNeeded c c 0 false) := by
  have hp : ∀ n m, Searched s (s.ownHit b c m) n ((s.turned n).kepPopNextThreadIfNeeded c c m false) :=
    fun n m => ⟨n, (h.turned n).kepPopNextThreadIfNeeded, fun _ => rfl⟩
  have hst : ∀ n m, ∃ n', (s.turned n).kepGetNextProcessorToStealWorkFrom.1 = s.turned n' ∧
      Searched s ((s.turned n).stealHit b c 0 m) n' ((s.turned n).kepTryStealThread c m) := by
    intro n m
    obtain ⟨n', htr, hr⟩ := (h.turned n).kepTryStealThread (c := c) (m := m)
    exact ⟨n', htr, n', hr, fun _ => rfl⟩
  obtain ⟨n₁, htr₁, hst₁⟩ := hst s.nextToSteal (s.basePriorityOn c + 1)
  obtain ⟨n₂, htr₂, hst₂⟩ := hst n₁ (s.basePriorityOn c)
  obtain ⟨n₃, -, hst₃⟩ := hst n₂ 1
  have hsn : (s.turned n₁).victim 0 = s.victim 1 := by
    rw [← htr₁]
    rfl
  have hh : (s.turned n₂).victim 0 = s.victim 2 := by
    rw [← htr₂, ← htr₁]
    rfl
  rw [stealHit_turned hsn] at hst₂
  rw [stealHit_turned hh] at hst₃
  exact ⟨n₃, ((((hp s.nextToSteal _).orElse hst₁).orElse (hp n₁ _)).orElse hst₂).orElse
    (hst₃.orElse (hp n₃ 0))⟩

/-! ## The bulk steal -/

/-- What the bulk steal leaves alone besides what is in `Frame`. -/
structure Level (s s' : SchedSystem P T) : Prop where
  thread : s'.thread = s.thread
  processors : s'.processors = s.processors
  mostCrowded : s'.mostCrowded = s.mostCrowded
  nextToSteal : s'.nextToSteal = s.nextToSteal
  current : ∀ p, (s'.scheduler p).currentThread = (s.scheduler p).currentThread

omit [DecidableEq P] [DecidableEq T] in
theorem Level.refl (s : SchedSystem P T) : Level s s := ⟨rfl, rfl, rfl, rfl, fun _ => rfl⟩

omit [DecidableEq P] [DecidableEq T] in
theorem Level.trans {s' s'' : SchedSystem P T} (h : Level s s') (h' : Level s' s'') : Level s s'' where
  thread := h'.thread.trans h.thread
  processors := h'.processors.trans h.processors
  mostCrowded := h'.mostCrowded.trans h.mostCrowded
  nextToSteal := h'.nextToSteal.trans h.nextToSteal
  current p := (h'.current p).trans (h.current p)

theorem Level.moveThread (s : SchedSystem P T) (their own : P) (k : Nat) (t : T) :
    Level s (s.moveThread their own k t) := by
  have hc : ∀ s' : SchedSystem P T, (s'.clearMaskBitIfEmpty their k).processors = s'.processors ∧
      (s'.clearMaskBitIfEmpty their k).mostCrowded = s'.mostCrowded ∧
      (s'.clearMaskBitIfEmpty their k).nextToSteal = s'.nextToSteal := by
    intro s'
    rw [clearMaskBitIfEmpty_eq]
    exact ⟨rfl, rfl, rfl⟩
  refine ⟨?_, (hc _).1, (hc _).2.1, (hc _).2.2, (Frame.moveThread s their k t own).current⟩
  simp [SchedSystem.moveThread]

theorem Shows.moveThread (h : Shows s b) (hne : their ≠ own) (hl : b.queues their k = t :: l) :
    Shows (s.moveThread their own k t) (b.moveQueue their own k 1) := by
  have ht : t ∈ b.queues their k := by simp [hl]
  have hrm : s.queues.removeHead (.head their k) = s.queues.remove (.entry t) := by
    have hr := h.queued.ring their k
    rw [hl] at hr
    exact hr.removeHead_eq
  have hrs : (b.queues their k).erase t = l := by simp [hl]
  have hq : Queued (s.queues.removeHead (.head their k)) (put b.queues their k l) := by
    rw [hrm, ← hrs]
    exact h.queued.remove ht
  have hgn : ¬ Members (put b.queues their k l) t := by
    rw [← hrs, h.queued.apart.members_erase ht]
    exact fun hm => hm.2 rfl
  have hq' := hq.insertTail hgn own k
  have hw : put b.queues their k l own k = b.queues own k := put_of_ne fun hh => hne hh.1.symm
  constructor
  · rw [Board.queues_moveQueue, hl]
    rw [hw] at hq'
    simpa [SchedSystem.moveThread] using hq'
  · intro q
    rw [Board.mask_moveQueue Nat.one_ne_zero hl, ← h.masks, ← h.masks, ← h.masks]
    have he : ((s.queues.removeHead (.head their k)).insertTail (.head own k)
        (.entry t)).isEmpty (.head their k) = true ↔ l.length < 1 := by
      rw [hq'.isEmpty_iff, put_of_ne fun hh => hne hh.1, put_self, Nat.lt_one_iff, length_eq_zero_iff]
    simp only [SchedSystem.moveThread, masks_addToCount, masks_setMaskBit,
      masks_clearMaskBitIfEmpty, masks_insertTailQueue, masks_queues, queues_insertTailQueue, he]
    by_cases ho : q = own
    · simp [ho, hne.symm]
    · by_cases hq : q = their
      · simp [hq, hne]
      · simp [ho, hq]

theorem Shows.stealQueue (h : Shows s b) (hne : their ≠ own) (i left : Nat) :
    Shows (SchedSystem.stealQueue their own i left s).1 (b.moveQueue their own i left) ∧
      Level s (SchedSystem.stealQueue their own i left s).1 ∧
      (SchedSystem.stealQueue their own i left s).2 = left - (b.queues their i).length := by
  induction left generalizing s b with
  | zero =>
    rw [Board.moveQueue_zero, Nat.zero_sub]
    exact ⟨h, .refl s, rfl⟩
  | succ left ih =>
    rw [SchedSystem.stealQueue]
    cases hl : b.queues their i with
    | nil =>
      rw [if_pos (h.isEmpty_iff.2 hl), Board.moveQueue_of_nil hl]
      exact ⟨h, .refl s, rfl⟩
    | cons t l =>
      have hnt : ¬ s.queues.isEmpty (.head their i) = true := by
        rw [h.isEmpty_iff, hl]
        exact cons_ne_nil t l
      rw [if_neg hnt, h.queued.next_head hl]
      obtain ⟨hsh, hlv, hlf⟩ := ih (h.moveThread hne hl)
      rw [Board.moveQueue_succ hne hl] at hsh
      refine ⟨hsh, (Level.moveThread s their own i t).trans hlv, hlf.trans ?_⟩
      rw [Board.queues_moveQueue, hl, put_of_ne fun hh => hne hh.1, put_self]
      simp only [drop_succ_cons, drop_zero, length_cons]
      omega

theorem Shows.stealQueues (h : Shows s b) (hne : their ≠ own) (i left : Nat) :
    Shows (SchedSystem.stealQueues their own i left s) (b.share their own i left) ∧
      Level s (SchedSystem.stealQueues their own i left s) := by
  induction i generalizing s b left with
  | zero => exact ⟨h, .refl s⟩
  | succ i ih =>
    obtain ⟨hh, hlv, hlf⟩ := h.stealQueue hne (i + 1) left
    obtain ⟨hh', hlv'⟩ := ih hh (SchedSystem.stealQueue their own (i + 1) left s).2
    refine ⟨?_, hlv.trans hlv'⟩
    rw [Board.share, ← hlf]
    exact hh'

theorem Shows.stealIfCrowded (h : Shows s b) (c : P) :
    Shows (s.stealIfCrowded c) (s.shared b c) ∧ Level s (s.stealIfCrowded c) := by
  unfold SchedSystem.stealIfCrowded shared
  cases hp : s.mostCrowded with
  | none => exact ⟨h, .refl s⟩
  | some p =>
    have hgt : s.kepGetNextProcessorToStealWorkFrom = (s, some p) := by
      rw [SchedSystem.kepGetNextProcessorToStealWorkFrom, hp]
    rw [hgt, if_pos (isSome_some)]
    by_cases hc : p = c
    · subst hc
      simp only [ne_eq, not_true_eq_false, if_false, if_true]
      exact ⟨h, .refl s⟩
    · have hsm : some p ≠ some c := fun hh => hc (some.inj hh)
      simp only [if_pos hsm, if_neg hc, SchedSystem.kepStealManyThreads, hgt]
      exact h.stealQueues hc _ _

/-! ## The thread that is picked -/

omit [DecidableEq P] [DecidableEq T] in
theorem Level.victim {s' : SchedSystem P T} (h : Level s s') (i : Nat) : s'.victim i = s.victim i := by
  induction i generalizing s s' with
  | zero =>
    rw [SchedSystem.victim, SchedSystem.victim, kepGetNextProcessorToStealWorkFrom,
      kepGetNextProcessorToStealWorkFrom, h.mostCrowded, h.processors, h.nextToSteal]
    cases s.mostCrowded <;> rfl
  | succ i ih =>
    refine ih ?_
    rw [kepGetNextProcessorToStealWorkFrom, kepGetNextProcessorToStealWorkFrom, h.mostCrowded,
      h.processors, h.nextToSteal]
    cases hp : s.mostCrowded with
    | none => exact ⟨h.thread, rfl, rfl, rfl, h.current⟩
    | some p => exact h

omit [DecidableEq T] in
theorem Level.choice {s' : SchedSystem P T} (h : Level s s') (b : Board P T) (c : P) :
    s'.choice b c = s.choice b c := by
  have hb : s'.basePriorityOn c = s.basePriorityOn c := by
    rw [basePriorityOn, basePriorityOn, h.current, h.thread]
  simp only [SchedSystem.choice, ownHit, stealHit, hb, h.thread, h.victim]

theorem Shows.kiGetNextThread (h : Shows s b) (c : P) :
    ∃ s', Shows s' (s.shared b c) ∧ s'.thread = s.thread ∧
      s.kiGetNextThread c true = s'.took (s.choice (s.shared b c) c) := by
  obtain ⟨hh, hlv⟩ := h.stealIfCrowded c
  obtain ⟨n, k, hr, -⟩ := hh.attempts c
  refine ⟨(s.stealIfCrowded c).turned k, hh.turned k, hlv.thread, ?_⟩
  have hb : (s.stealIfCrowded c).basePriorityOn c = s.basePriorityOn c := by
    rw [basePriorityOn, basePriorityOn, hlv.current, hlv.thread]
  rw [hlv.choice, hb] at hr
  exact hr

/-! ## Finding work -/

/-- The bulk steal moves no thread of a queue to a queue of another priority. -/
theorem Core.shared {exact : Bool} {w : P → Nat} {Q : P → Nat → List T} (h : Core exact w s Q)
    (c : P) : Core exact w (s.stealIfCrowded c) (s.shared ⟨Q, s.masks⟩ c).queues := by
  obtain ⟨Q', hc, -, -⟩ := h.stealIfCrowded c
  have hh : Shows s ⟨Q, s.masks⟩ := ⟨h.queued, fun _ => rfl⟩
  have heq : Q' = (s.shared ⟨Q, s.masks⟩ c).queues := by
    funext p k
    have hrn := (hc.queued.ring p k).unique ((hh.stealIfCrowded c).1.queued.ring p k)
    exact map_injective_iff.2 (fun _ _ h => QueueNode.entry.inj h) hrn
  rwa [← heq]

omit [DecidableEq T] in
theorem mem_shared {c : P} (hu : t ∈ b.queues c k) : t ∈ (s.shared b c).queues c k := by
  unfold SchedSystem.shared
  cases s.mostCrowded with
  | none => exact hu
  | some p =>
    dsimp only
    split
    · exact hu
    · exact Board.mem_share hu

omit [DecidableEq P] [DecidableEq T] in
theorem Core.queuedOn_iff {exact : Bool} {w : P → Nat} {Q : P → Nat → List T}
    (h : Core exact w s Q) : s.QueuedOn p t ↔ ∃ k, t ∈ Q p k := by
  constructor
  · rintro ⟨k, -, l, hr, hme⟩
    rw [hr.unique (h.queued.ring p k)] at hme
    exact ⟨k, by simpa using hme⟩
  · rintro ⟨k, ht⟩
    exact ⟨k, h.lt_of_mem ht, _, h.queued.ring p k, List.mem_map_of_mem ht⟩

/-- The call returns a thread that may run on the processor, and one that it has stolen is not of
lower priority than one that may run there and stays in the processor's own queues; so a thread that
gives up the processor can be followed by another. -/
structure FindsWork (s : SchedSystem P T) (c : P) : Prop where
  next : ∃ t, (s.kiGetNextThread c true).2 = some t ∧ (s.thread t).affinity c = true ∧
    (¬ s.QueuedOn c t → ∀ u, (s.kiGetNextThread c true).1.QueuedOn c u →
      (s.thread u).affinity c = true → (s.thread u).priority ≤ (s.thread t).priority)
  yields : s.kiPerformYield c ≠ none

/-- No thread that may run on the processor waits there with a higher priority. -/
def Tops (s : SchedSystem P T) (b : Board P T) (c : P) (x : Hit P T) : Prop :=
  ∀ k, ∀ u ∈ b.queues c k, (s.thread u).affinity c = true → (s.thread u).priority ≤ x.priority

/-- The first thread of the highest own queue may run on the processor and has the priority of the
current thread at least; or it may run, or a steal succeeds, and what the first successful steal
finds, if any, is not of lower priority than an own thread that may run. -/
def WorkAtHand (s : SchedSystem P T) (b : Board P T) (c : P) : Prop :=
  (∃ x, s.ownHit (s.shared b c) c 0 = some x ∧ s.basePriorityOn c ≤ x.priority) ∨
    ((s.ownHit (s.shared b c) c 0).isSome ∨ (s.stolen (s.shared b c) c).isSome) ∧
      ∀ x, s.stolen (s.shared b c) c = some x → s.Tops (s.shared b c) c x

omit [DecidableEq T] in
theorem hit_some {thr : T → SchedThread P} {x : Hit P T} (h : hit thr b c p m other = some x) :
    topFrom (b.queues p) m = some (x.priority, x.thread) ∧ x.processor = p ∧
      (thr x.thread).affinity c = true := by
  unfold hit at h
  split at h
  · cases h
  · obtain ⟨⟨k, t⟩, hp, rfl⟩ := map_eq_some_iff.1 h
    obtain ⟨hp, htk⟩ := filter_eq_some_iff.1 hp
    exact ⟨hp, rfl, (Bool.and_eq_true_iff.1 htk).1⟩

omit [DecidableEq T] in
theorem ownHit_eq_filter (m : Nat) :
    s.ownHit b c m = (s.ownHit b c 0).filter fun x => m ≤ x.priority := by
  simp only [ownHit, hit, Bool.false_eq_true, false_and, if_false]
  rw [topFrom_eq_filter]
  cases topFrom (b.queues c) 0 with
  | none => rfl
  | some x =>
    rw [filter_some]
    by_cases hm : m ≤ x.1
    · rw [if_pos (decide_eq_true hm), filter_some]
      split
      · simp [filter_some, hm]
      · rfl
    · rw [if_neg (by simpa using hm), filter_some]
      split
      · simp [filter_some, hm]
      · rfl

omit [DecidableEq P] [DecidableEq T] in
/-- The first thread of the highest queue is of the highest priority there. -/
theorem tops_of_topFrom {x : Hit P T} (hp : ∀ {k u}, u ∈ b.queues c k →
      (s.thread u).priority = k ∧ k < priorityCount)
    (h : topFrom (b.queues c) m = some (x.priority, x.thread)) : s.Tops b c x := by
  intro k u hu _
  rw [topFrom_eq_filter] at h
  obtain ⟨hp, hk⟩ := hp hu
  rw [hp]
  exact le_of_topFrom (filter_eq_some_iff.1 h).1 hk hu

omit [DecidableEq T] in
theorem stealHit_le {x : Hit P T} (h : s.stealHit b c i m = some x) : m + 1 ≤ x.priority := by
  obtain ⟨p, -, hx⟩ := bind_eq_some_iff.1 h
  exact (topFrom_some (hit_some hx).1).1

omit [DecidableEq T] in
/-- When the first hit of all is high enough. -/
theorem choice_tops_iff (hw : ∀ x, s.ownHit b c 0 = some x → s.Tops b c x) :
    (∃ x, s.choice b c = some x ∧ s.Tops b c x) ↔
      (∃ x, s.ownHit b c 0 = some x ∧ s.basePriorityOn c ≤ x.priority) ∨
        ((s.ownHit b c 0).isSome ∨ (s.stolen b c).isSome) ∧
          ∀ x, s.stolen b c = some x → s.Tops b c x := by
  have hc : s.choice b c = ((s.ownHit b c (s.basePriorityOn c + 1)).or
      (s.stealHit b c 0 (s.basePriorityOn c + 1))).or
      ((s.ownHit b c (s.basePriorityOn c)).or ((s.stealHit b c 1 (s.basePriorityOn c)).or
        ((s.stealHit b c 2 1).or (s.ownHit b c 0)))) := by
    simp only [choice, Option.or_assoc]
  rw [hc, ownHit_eq_filter (s.basePriorityOn c + 1), ownHit_eq_filter (s.basePriorityOn c)]
  cases ho : s.ownHit b c 0 with
  | none =>
    simp only [filter_none, none_or, or_none, reduceCtorEq, false_and,
      exists_false, false_or, isSome_none, Bool.false_eq_true]
    rw [← stolen]
    cases hs : s.stolen b c with
    | none => simp
    | some x => simp
  | some y =>
    have hp := hw y ho
    simp only [filter_some, decide_eq_true_eq, some.injEq, isSome_some, true_or, true_and]
    by_cases hlt : y.priority < s.basePriorityOn c
    · -- the own queues come last
      have hnt : ¬ ∃ x, y = x ∧ s.basePriorityOn c ≤ x.priority := by
        rintro ⟨x, rfl, hle⟩
        omega
      rw [if_neg (by omega), if_neg (by omega), none_or, none_or, stolen]
      simp only [hnt, false_or]
      cases s.stealHit b c 0 (s.basePriorityOn c + 1) with
      | some x => simp
      | none =>
        cases s.stealHit b c 1 (s.basePriorityOn c) with
        | some x => simp
        | none =>
          cases s.stealHit b c 2 1 with
          | some x => simp
          | none => simp [hp]
    · have hle : s.basePriorityOn c ≤ y.priority := by omega
      refine iff_of_true ?_ (.inl ⟨y, rfl, hle⟩)
      by_cases hh : s.basePriorityOn c + 1 ≤ y.priority
      · exact ⟨y, by rw [if_pos hh]; rfl, hp⟩
      · rw [if_neg hh, if_pos hle, none_or]
        cases hst : s.stealHit b c 0 (s.basePriorityOn c + 1) with
        | none => exact ⟨y, rfl, hp⟩
        | some x =>
          have hx := stealHit_le hst
          exact ⟨x, rfl, fun k u hu ha => (hp k u hu ha).trans (by omega)⟩

theorem Shows.queuedOn_took {s' : SchedSystem P T} {x : Hit P T} {u : T} (h : Shows s' b)
    (hx : x.thread ∈ b.queues x.processor x.priority) (hk : ∀ k, u ∈ b.queues c k → k < priorityCount) :
    (s'.took (some x)).1.QueuedOn c u ↔ (∃ k, u ∈ b.queues c k) ∧ u ≠ x.thread := by
  have hq := h.queued.remove hx
  have hqs : (s'.took (some x)).1.queues = s'.queues.remove (.entry x.thread) := by
    simp [took, SchedSystem.popThread]
  rw [← hqs] at hq
  constructor
  · rintro ⟨k, -, l, hr, hme⟩
    rw [hr.unique (hq.ring c k)] at hme
    obtain ⟨hu, hne⟩ := (h.queued.apart.mem_put_erase hx).1 (by simpa using hme)
    exact ⟨⟨k, hu⟩, hne⟩
  · rintro ⟨⟨k, hu⟩, hne⟩
    exact ⟨k, hk k hu, _, hq.ring c k,
      List.mem_map_of_mem ((h.queued.apart.mem_put_erase hx).2 ⟨hu, hne⟩)⟩

omit [DecidableEq T] in
theorem hit_of_choice {x : Hit P T} (h : s.choice b c = some x) :
    ∃ p m other, hit s.thread b c p m other = some x := by
  have hst : ∀ {i m}, s.stealHit b c i m = some x →
      ∃ p m other, hit s.thread b c p m other = some x := by
    intro i m h
    obtain ⟨p, -, hx⟩ := bind_eq_some_iff.1 h
    exact ⟨p, m + 1, true, hx⟩
  have hw : ∀ {m}, s.ownHit b c m = some x → ∃ p m other, hit s.thread b c p m other = some x :=
    fun h => ⟨c, _, false, h⟩
  rw [choice] at h
  rcases or_eq_some_iff.1 h with h | ⟨-, h⟩
  · rcases or_eq_some_iff.1 h with h | ⟨-, h⟩
    · rcases or_eq_some_iff.1 h with h | ⟨-, h⟩
      · rcases or_eq_some_iff.1 h with h | ⟨-, h⟩
        · exact hw h
        · exact hst h
      · exact hw h
    · exact hst h
  · rcases or_eq_some_iff.1 h with h | ⟨-, h⟩
    · exact hst h
    · exact hw h

/-- A processor finds work exactly when it has work at hand. -/
theorem findsWork_iff {exact : Bool} {w : P → Nat} {Q : P → Nat → List T} (h : Core exact w s Q)
    (c : P) : s.FindsWork c ↔ s.WorkAtHand ⟨Q, s.masks⟩ c := by
  have hsh : Shows s ⟨Q, s.masks⟩ := ⟨h.queued, fun _ => rfl⟩
  obtain ⟨s', hsh', hth, hr⟩ := hsh.kiGetNextThread c
  have hc := h.shared c
  have hsm := (hsh.stealIfCrowded c).2.thread
  set b := s.shared ⟨Q, s.masks⟩ c with hb
  have hpr : ∀ {p k u}, u ∈ b.queues p k → (s.thread u).priority = k ∧ k < priorityCount := by
    intro p k u hu
    rw [← hsm]
    exact ⟨hc.priority hu, hc.lt_of_mem hu⟩
  have hts : ∀ {x p m other}, hit s.thread b c p m other = some x → p = c → s.Tops b c x := by
    rintro x p m other hx rfl
    exact tops_of_topFrom hpr (hit_some hx).1
  refine Iff.trans ?_ (choice_tops_iff fun x hx => hts hx rfl)
  constructor
  · rintro ⟨⟨t, ht, -, hle⟩, -⟩
    rw [hr] at ht hle
    cases hx : s.choice b c with
    | none =>
      rw [hx] at ht
      cases ht
    | some x =>
      rw [hx] at ht hle
      obtain rfl : x.thread = t := some.inj ht
      refine ⟨x, rfl, ?_⟩
      obtain ⟨p, m, other, hh⟩ := hit_of_choice hx
      obtain ⟨htp, hp, -⟩ := hit_some hh
      obtain ⟨-, -, l, hl⟩ := topFrom_some htp
      have hme : x.thread ∈ b.queues x.processor x.priority := by
        rw [hp, hl]
        exact mem_cons_self
      by_cases hpc : p = c
      · exact hts hh hpc
      · intro k u hu ha
        have hfr : ∀ j, x.thread ∉ b.queues c j :=
          fun j hj => hpc (hp ▸ (hsh'.queued.apart.one hme hj).1)
        rw [← (hpr hme).1]
        refine hle (fun hq => ?_) u ?_ ha
        · obtain ⟨j, hj⟩ := h.queuedOn_iff.1 hq
          exact hfr j (mem_shared hj)
        · refine (hsh'.queuedOn_took hme fun k hk => (hpr hk).2).2 ⟨⟨k, hu⟩, ?_⟩
          rintro rfl
          exact hfr k hu
  · rintro ⟨x, hx, hle⟩
    rw [hx] at hr
    obtain ⟨p, m, other, hh⟩ := hit_of_choice hx
    obtain ⟨htp, hp, haf⟩ := hit_some hh
    obtain ⟨-, -, l, hl⟩ := topFrom_some htp
    have hme : x.thread ∈ b.queues x.processor x.priority := by
      rw [hp, hl]
      exact mem_cons_self
    refine ⟨⟨x.thread, by rw [hr]; rfl, haf, fun _ u hu ha => ?_⟩, ?_⟩
    · rw [hr] at hu
      obtain ⟨⟨k, hk⟩, -⟩ := (hsh'.queuedOn_took hme fun k hk => (hpr hk).2).1 hu
      rw [(hpr hme).1]
      exact hle k u hk ha
    · unfold SchedSystem.kiPerformYield
      rw [hr]
      cases (s.scheduler c).currentThread with
      | none => exact some_ne_none _
      | some t =>
        dsimp only [took]
        split
        · exact some_ne_none _
        · split <;> exact some_ne_none _

end

/-- A thread that may run on every processor. -/
def anywhere (p : P) (priority : Nat) : SchedThread P where
  status := .ready
  suspended := false
  priority := priority
  basePriority := priority
  priorityBoost := 0
  lastProcessor := p
  dontSteal := false
  affinity _ := true

theorem findsWork_iff_sample : (((SchedSystem.boot [()] () : SchedSystem Unit (Fin 1)).setThread 0
      (anywhere () 20)).enqueued () 20 0).FindsWork () := by
  have hc := (SchedHistory.core_boot true [()] ()).setThread_idle (x := anywhere () 20)
    (t := (0 : Fin 1)) (by simp [Members]) rfl (by decide)
  have hrd := hc.enqueue (c := ()) (t := 0) (by simp [Members]) rfl rfl fun _ => ⟨rfl, rfl⟩
  exact (findsWork_iff hrd ()).2 (.inl ⟨⟨(), 20, 0⟩, by decide, by decide⟩)

/-- The first thread of a queue, as the links have it. -/
theorem Core.mem_of_next {exact : Bool} {w : P → Nat} {s : SchedSystem P T} {Q : P → Nat → List T}
    {p : P} {k : Nat} {t : T} (h : Core exact w s Q) (hnext : s.queues.next (.head p k) = .entry t) :
    t ∈ Q p k := by
  cases hl : Q p k with
  | nil =>
    have he := h.queued.isEmpty_iff.2 hl
    rw [Links.isEmpty, decide_eq_true_eq, hnext] at he
    cases he
  | cons u l =>
    rw [h.queued.next_head hl] at hnext
    obtain rfl := QueueNode.entry.inj hnext
    exact mem_cons_self

/-- The idle thread, a thread of priority 16 that runs and one of priority 5 that waits, all on one
processor, and one of priority 2 that waits on another. -/
def threeWaiting (here there : P) (idle runs low lower : T) : List (SchedAction P T) :=
  [.init here idle 8 fun _ => true, .setPriority here idle 0, .ready here idle,
    .init here runs 16 fun _ => true, .ready here runs, .quantumEnd here,
    .init here low 5 fun _ => true, .ready here low,
    .init there lower 2 fun _ => true, .ready there lower]

/-- The thread is about to give up its processor to wait. -/
def aboutToWait (s : SchedSystem P T) (t : T) : SchedSystem P T :=
  s.setThread t { s.thread t with status := .waiting }

/-- When thread 1 starts to wait, its processor steals the thread of priority 2 and leaves its own one
of priority 5 waiting. -/
theorem steals_below_own_thread : ∃ h : SchedHistory (Fin 3) (Fin 4),
      Reaches SchedHistory.step SchedHistory.SetsOwnPriority (SchedHistory.start [0, 1, 2] 0) h ∧
      (h.system.scheduler 0).currentThread = some 1 ∧
      (∀ p t, (h.system.thread t).affinity p = true) ∧ h.system.QueuedOn 0 0 ∧
      ¬ (h.system.aboutToWait 1).FindsWork 0 := by
  obtain ⟨h, hrn, hts⟩ := (Option.any_eq_true _ _).1 (show (runChecked SchedHistory.step
    SchedHistory.fresh (threeWaiting 0 2 0 1 2 3) (SchedHistory.start [0, 1, 2] 0)).any
      (fun h : SchedHistory (Fin 3) (Fin 4) =>
      ((h.system.scheduler 0).currentThread = some 1 ∧
      (∀ p t, (h.system.thread t).affinity p = true) ∧
      h.system.queues.next (.head 0 0) = .entry 0 ∧ h.system.queues.next (.head 2 2) = .entry 3 ∧
      ((h.system.aboutToWait 1).kiGetNextThread 0 true).2 = some 3 ∧
      ((h.system.aboutToWait 1).kiGetNextThread 0 true).1.queues.next (.head 0 5) = .entry 2 ∧
      ((h.system.aboutToWait 1).thread 3).priority < ((h.system.aboutToWait 1).thread 2).priority
      : Bool)) = true by
      decide +kernel)
  obtain ⟨hc, ha, hil, hfr, hnext, hlf, hlt⟩ := of_decide_eq_true hts
  have hrc := Reaches.of_runChecked SchedHistory.setsOwnPriority_of_fresh hrn
  obtain ⟨Q, hin⟩ := SchedHistory.inv_of_reaches [0, 1, 2] 0 hrc
  have hcr := hin.core
  have hw : Core true h.wakes (h.system.aboutToWait 1) Q :=
    hcr.setThread_same rfl rfl
  refine ⟨h, hrc, hc, ha, hcr.queuedOn_iff.2 ⟨0, hcr.mem_of_next hil⟩, ?_⟩
  rintro ⟨⟨t, ht, -, hle⟩, -⟩
  rw [hnext] at ht
  cases ht
  obtain ⟨Q', haf, -, -, -⟩ := hw.kiGetNextThread 0 true
  refine absurd (hle (fun hq => ?_) 2 (haf.queuedOn_iff.2 ⟨5, haf.mem_of_next hlf⟩) ?_) (by omega)
  · obtain ⟨k, hk⟩ := hw.queuedOn_iff.1 hq
    exact absurd (hcr.queued.apart.one hk (hcr.mem_of_next hfr)).1 (by decide)
  · exact ha 0 2

end SchedSystem

end Boron.Ke
