import Mathlib.Algebra.BigOperators.Group.List.Basic
import Boron.Ke.Wakeups
import Mathlib.Algebra.Ring.Nat

/-! # What waits acquire

Each object has an account: who acquired it how often, what was released, and on which mutex lists it
is. The count of the object agrees with the account (`Balanced`) as long as it fits in its 16 bits,
and every acquisition is part of a wait that was satisfied, in one go, by objects that were signaled
for the thread (`Acq`). -/

namespace Boron.Ke

open Function List Option

variable {T O : Type} [DecidableEq T] [DecidableEq O]

/-! ## One object -/

/-- What has happened to an object. -/
structure Account (T : Type) where
  /-- How often a thread acquired it. -/
  taken : T → Nat
  total : Nat
  /-- How often a thread released it, for a mutex. -/
  released : T → Nat
  /-- The sum of all adjustments, for a semaphore. -/
  adjusted : Nat
  /-- How many acquisitions there were when it was last set, for an event. -/
  atSet : Nat
  /-- How often it is on the mutex list of a thread. -/
  listed : T → Nat

def Account.acquire (a : Account T) (t : T) (first : Bool) : Account T :=
  { a with
    taken := update a.taken t (a.taken t + 1)
    total := a.total + 1
    listed := if first then update a.listed t (a.listed t + 1) else a.listed }

namespace Header

variable {h h' : Header T} {t : T} {initial : Int} {a : Account T}

/-- The mutex is held by `t`, and its count is the largest there is. -/
def Full (h : Header T) (t : T) : Prop :=
  h.type = .mutex ∧ h.ownerThread = some t ∧ h.signaled = 32767

/-- The state of an object agrees with its account. -/
def Balanced (h : Header T) (initial : Int) (a : Account T) : Prop :=
  match h.type with
  | .mutex =>
    (h.ownerThread = none → h.signaled = 0) ∧
      (∀ t, h.ownerThread = some t → 0 < h.signaled.toInt) ∧
      (∀ t, (a.taken t : Int) - a.released t =
        if h.ownerThread = some t then h.signaled.toInt else 0) ∧
      ∀ t, a.listed t = if h.ownerThread = some t then 1 else 0
  | .semaphore => 0 ≤ h.signaled.toInt ∧ h.signaled.toInt = initial + a.adjusted - a.total
  | .synchronizationEvent => a.total + (if h.signaled = 0 then 0 else 1) ≤ a.atSet + 1
  | _ => True

variable {n : BitVec 16}

theorem toInt_add_one (hn : n ≠ 32767) : (n + 1).toInt = n.toInt + 1 := by
  have hne : n.toNat ≠ 32767 := fun heq => hn (BitVec.eq_of_toNat_eq heq)
  rw [BitVec.toInt_eq_toNat_cond, BitVec.toInt_eq_toNat_cond, BitVec.toNat_add]
  simp only [BitVec.ofNat_eq_ofNat, BitVec.toNat_ofNat]
  split <;> split <;> omega

theorem toInt_sub_one (hn : 0 < n.toInt) : (n - 1).toInt = n.toInt - 1 := by
  rw [BitVec.toInt_eq_toNat_cond] at hn ⊢
  rw [BitVec.toInt_eq_toNat_cond, BitVec.toNat_sub]
  simp only [BitVec.ofNat_eq_ofNat, BitVec.toNat_ofNat]
  split at hn <;> split <;> omega

theorem balanced_mutex (hy : h.type = .mutex) : h.Balanced initial a ↔
    (h.ownerThread = none → h.signaled = 0) ∧ (∀ t, h.ownerThread = some t → 0 < h.signaled.toInt) ∧
      (∀ t, (a.taken t : Int) - a.released t =
        if h.ownerThread = some t then h.signaled.toInt else 0) ∧
      ∀ t, a.listed t = if h.ownerThread = some t then 1 else 0 := by
  simp only [Balanced, hy]

omit [DecidableEq T] in
theorem ne_zero_of_pos (hn : 0 < n.toInt) : n ≠ 0#16 := by
  rintro rfl
  exact absurd hn (by decide)

section

variable (hb : h.Balanced initial a)
include hb

theorem Balanced.acquireFree (hy : h.type = .mutex)
    (hfr : h.ownerThread = none) :
    Balanced { h with signaled := h.signaled + 1, ownerThread := some t } initial
      (a.acquire t true) := by
  obtain ⟨hnn, -, hcount, hls⟩ := (balanced_mutex hy).1 hb
  have hz := hnn hfr
  simp only [hfr, reduceCtorEq, if_false] at hcount hls
  refine (balanced_mutex (h := { h with signaled := h.signaled + 1, ownerThread := some t })
    hy).2 ⟨nofun, fun u _ => ?_, fun u => ?_, fun u => ?_⟩
  · simp [hz]
  · have hu := hcount u
    by_cases hut : u = t
    · subst hut
      simp [Account.acquire, hz]
      omega
    · simp [Account.acquire, hut, Ne.symm hut, hu]
  · by_cases hut : u = t
    · subst hut
      simp [Account.acquire, hls u]
    · simp [Account.acquire, hut, Ne.symm hut, hls u]

theorem Balanced.acquireAgain (hy : h.type = .mutex)
    (hw : h.ownerThread = some t) (hfl : h.signaled ≠ 32767) :
    Balanced { h with signaled := h.signaled + 1, ownerThread := some t } initial
      (a.acquire t false) := by
  obtain ⟨-, hpos, hcount, hls⟩ := (balanced_mutex hy).1 hb
  have hnext := toInt_add_one hfl
  refine (balanced_mutex (h := { h with signaled := h.signaled + 1, ownerThread := some t })
    hy).2 ⟨nofun, fun u _ => ?_, fun u => ?_, fun u => ?_⟩
  · have := hpos t hw
    show 0 < (h.signaled + 1).toInt
    omega
  · have hu := hcount u
    by_cases hut : u = t
    · subst hut
      simp only [hw, if_true] at hu
      simp only [Account.acquire, update_self, if_true, hnext]
      push_cast
      omega
    · simp [Account.acquire, hw, hut, Ne.symm hut] at hu ⊢
      exact hu
  · simpa [Account.acquire, hw] using hls u

theorem Balanced.acquire (ha : h.kiAcquireObject t = some h')
    (hsg : h.kiIsObjectSignaled t = true) (hfl : ¬ h.Full t) :
    h'.Balanced initial (a.acquire t (decide (h'.type = .mutex ∧ h.signaled = 0))) := by
  cases hy : h.type with
  | mutex =>
    obtain ⟨hnn, hpos, -, -⟩ := (balanced_mutex hy).1 hb
    simp only [kiAcquireObject, hy] at ha
    split at ha
    · cases ha
    · next hw =>
        cases ha
        cases hold : h.ownerThread with
        | none => simpa [hnn hold, hy] using hb.acquireFree (t := t) hy hold
        | some v =>
          obtain rfl : v = t := by
            by_contra hne
            exact hw ⟨by simp [hold], by simp [hold, hne]⟩
          have hne := ne_zero_of_pos (hpos v hold)
          simpa [hne, hy] using hb.acquireAgain hy hold fun heq => hfl ⟨hy, hold, heq⟩
  | semaphore =>
    simp only [kiAcquireObject, hy] at ha
    cases ha
    obtain ⟨hng, hsm⟩ : 0 ≤ h.signaled.toInt ∧ _ := by simpa only [Balanced, hy] using hb
    have hne : h.signaled ≠ 0#16 := by simpa [kiIsObjectSignaled, hy] using hsg
    have hpos : 0 < h.signaled.toInt := by
      rcases Int.lt_or_eq_of_le hng with hlt | heq
      · exact hlt
      · exact absurd (BitVec.eq_of_toInt_eq heq.symm) hne
    have hnext := toInt_sub_one hpos
    show 0 ≤ (h.signaled - 1).toInt ∧
      (h.signaled - 1).toInt = initial + a.adjusted - ((a.total + 1 : Nat) : Int)
    omega
  | synchronizationEvent =>
    simp only [kiAcquireObject, hy] at ha
    cases ha
    have hne : h.signaled ≠ 0#16 := by simpa [kiIsObjectSignaled, hy] using hsg
    have hsm : a.total + 1 ≤ a.atSet + 1 := by simpa [Balanced, hy, hne] using hb
    simpa [Balanced, hy, Account.acquire] using hsm
  | _ =>
    simp only [kiAcquireObject, hy] at ha
    cases ha
    simp only [Balanced, hy]

theorem Balanced.releaseNested (hy : h.type = .mutex)
    (hw : h.ownerThread = some t) (hcount : h.signaled - 1 ≠ 0) (hge : 0 ≤ (h.signaled - 1).toInt) :
    Balanced { h with signaled := h.signaled - 1 } initial
      { a with released := update a.released t (a.released t + 1) } := by
  obtain ⟨-, hpos, hsm, hls⟩ := (balanced_mutex hy).1 hb
  have hnext := toInt_sub_one (hpos t hw)
  have hlt : 0 < (h.signaled - 1).toInt := by
    rcases Int.lt_or_eq_of_le hge with hlt | heq
    · exact hlt
    · exact absurd (BitVec.eq_of_toInt_eq heq.symm) hcount
  refine (balanced_mutex (h := { h with signaled := h.signaled - 1 }) hy).2
    ⟨fun hnn => ?_, fun u _ => hlt, fun u => ?_, hls⟩
  · rw [show h.ownerThread = none from hnn] at hw
    cases hw
  · have hu := hsm u
    by_cases hut : u = t
    · subst hut
      simp only [hw, if_true, update_self] at hu ⊢
      omega
    · simp only [hw, some.injEq, Ne.symm hut, if_false, update_of_ne hut] at hu ⊢
      exact hu

theorem Balanced.releaseLast (hy : h.type = .mutex)
    (hw : h.ownerThread = some t) (hcount : h.signaled - 1 = 0) :
    Balanced { h with signaled := 0, ownerThread := none } initial
      { a with
        released := update a.released t (a.released t + 1)
        listed := update a.listed t (a.listed t - 1) } := by
  obtain ⟨-, hpos, hsm, hls⟩ := (balanced_mutex hy).1 hb
  have hnext := toInt_sub_one (hpos t hw)
  rw [hcount] at hnext
  have hz : (0 : BitVec 16).toInt = 0 := by decide
  refine (balanced_mutex (h := { h with signaled := 0, ownerThread := none }) hy).2
    ⟨fun _ => rfl, nofun, fun u => ?_, fun u => ?_⟩
  · have hu := hsm u
    by_cases hut : u = t
    · subst hut
      simp only [hw, if_true, update_self, reduceCtorEq, if_false] at hu ⊢
      omega
    · simp only [hw, some.injEq, Ne.symm hut, if_false, update_of_ne hut, reduceCtorEq] at hu ⊢
      exact hu
  · have hu := hls u
    by_cases hut : u = t
    · subst hut
      simp [hw, hu]
    · simpa [hw, hut, Ne.symm hut] using hu

end

omit [DecidableEq T] in
/-- The count after a release of a semaphore, if it fits. -/
theorem toInt_add_ofNat {m : Nat} (hge : 0 ≤ n.toInt) (hlt : n.toNat + m < 32768) :
    (n + BitVec.ofNat 16 m).toInt = n.toInt + m := by
  rw [BitVec.toInt_eq_toNat_cond] at hge ⊢
  rw [BitVec.toInt_eq_toNat_cond, BitVec.toNat_add]
  simp only [BitVec.toNat_ofNat]
  split at hge <;> split <;> omega

end Header

/-! ## All objects -/

/-- The counts of the actions so far. -/
structure Ledger (T O : Type) where
  released : T → Handle T O → Nat
  adjusted : Handle T O → Nat
  atSet : Handle T O → Nat

/-- The ledger after a release of a mutex. -/
def Ledger.release (l : Ledger T O) (t : T) (o : Handle T O) : Ledger T O :=
  { l with
    released := update l.released t
      (update (l.released t) o (l.released t o + 1)) }

namespace Dispatcher

variable {d d' : Dispatcher T O} {l l' : Ledger T O} {t u : T} {o x : Handle T O}
  {os : List (Handle T O)} {initial : Handle T O → Int} {h : Header T}

/-- How often a thread has acquired an object. -/
def takenBy (d : Dispatcher T O) (t : T) (o : Handle T O) : Nat :=
  (d.grants.map fun g => if g.thread = t then g.taken.count o else 0).sum

/-- How often an object has been acquired. -/
def takenTotal (d : Dispatcher T O) (o : Handle T O) : Nat :=
  (d.grants.map fun g => g.taken.count o).sum

def account (d : Dispatcher T O) (l : Ledger T O) (o : Handle T O) : Account T where
  taken t := d.takenBy t o
  total := d.takenTotal o
  released t := l.released t o
  adjusted := l.adjusted o
  atSet := l.atSet o
  listed t := (d.mutexList t).count o

/-- All accounts are balanced, no waiter can overflow a count, and every wait for all of its objects
that was satisfied took all of them, when all of them were signaled. -/
structure Acq (initial : Handle T O → Int) (l : Ledger T O) (d : Dispatcher T O) : Prop where
  balanced : ∀ o, (d.header o).Balanced (initial o) (d.account l o)
  below : ∀ t, d.Waiting t → ∀ o ∈ (d.thread t).waitObjects, ¬ (d.header o).Full t
  whole : ∀ g ∈ d.grants, g.waitType = .all → g.taken = g.objects ∧ g.signaled = g.objects

/-- What the lists look like when a thread has acquired objects. -/
theorem lists_acquire (ha : d.acquire t o = some d') :
    d'.grants = d.grants ∧ ∀ u x, (d'.mutexList u).count x = (d.mutexList u).count x +
      if u = t ∧ x = o ∧ (d'.header o).type = .mutex ∧ (d.header o).signaled = 0 then 1 else 0 := by
  unfold acquire at ha
  obtain ⟨h', -, rfl⟩ := map_eq_some_iff.1 ha
  by_cases hmt : h'.type = .mutex ∧ (d.header o).signaled = 0
  · rw [if_pos hmt]
    refine ⟨rfl, fun u x => ?_⟩
    have hh : ((d.setHeader o h').setMutexList t (o :: d.mutexList t)).header o = h' :=
      update_self ..
    rw [hh]
    by_cases hu : u = t
    · subst hu
      by_cases hx : x = o
      · subst hx
        simp [setMutexList, hmt]
      · simp [setMutexList, hx, Ne.symm hx]
    · simp [setMutexList, hu, setHeader]
  · rw [if_neg hmt]
    refine ⟨rfl, fun u x => ?_⟩
    have hh : (d.setHeader o h').header o = h' := update_self ..
    rw [hh, if_neg fun hc => hmt hc.2.2]
    rfl

theorem lists_acquireAll (hnd : os.Nodup) (ha : d.acquireAll t os = some d') :
    d'.grants = d.grants ∧ ∀ u x, (d'.mutexList u).count x = (d.mutexList u).count x +
      if u = t ∧ x ∈ os ∧ (d'.header x).type = .mutex ∧ (d.header x).signaled = 0 then 1 else 0 := by
  induction os generalizing d with
  | nil =>
    cases ha
    simp
  | cons o os ih =>
    obtain ⟨hnt, hnd'⟩ := nodup_cons.1 hnd
    simp only [acquireAll] at ha
    obtain ⟨d₁, h₁, hrs⟩ := bind_eq_some_iff.1 ha
    have hot := took_acquireAll hnd' hrs
    have hfs := took_acquire h₁
    obtain ⟨hgr₁, hls₁⟩ := lists_acquire h₁
    obtain ⟨hgr, hls⟩ := ih hnd' hrs
    refine ⟨hgr.trans hgr₁, fun u x => ?_⟩
    rw [hls, hls₁]
    by_cases hx : x = o
    · subst hx
      simp [hnt, hot.other x hnt]
    · have hsm : d₁.header x = d.header x := hfs.other x (by simpa using hx)
      simp [hx, hsm]

omit [DecidableEq O] in
theorem record_grants (hgr : d'.grants = d.grants) (wt : WaitType) (objs : List (Handle T O)) :
    (d.record d' t wt objs os).grants =
      d.grants ++ [⟨t, wt, objs, os, objs.filter (d.isSignaled · t)⟩] := by
  rw [record, hgr]

theorem account_record (hnd : os.Nodup) (ha : d.acquireAll t os = some d') (wt : WaitType)
    (objs : List (Handle T O)) (x : Handle T O) :
    (d.record d' t wt objs os).account l x =
      if x ∈ os then (d.account l x).acquire t
        (decide ((d'.header x).type = .mutex ∧ (d.header x).signaled = 0))
      else d.account l x := by
  obtain ⟨hgr, hli⟩ := lists_acquireAll hnd ha
  have hb : ∀ u, (d.record d' t wt objs os).takenBy u x =
      d.takenBy u x + if t = u then os.count x else 0 := by
    intro u
    simp [takenBy, record_grants hgr]
  have htl : (d.record d' t wt objs os).takenTotal x = d.takenTotal x + os.count x := by
    simp [takenTotal, record_grants hgr]
  have hls : ∀ u, ((d.record d' t wt objs os).mutexList u).count x = _ :=
    fun u => hli u x
  by_cases hx : x ∈ os
  · have hon : os.count x = 1 := count_eq_one_of_mem hnd hx
    rw [if_pos hx]
    simp only [account, Account.acquire, Account.mk.injEq, htl, hon, true_and, hb, hls, hx]
    refine ⟨funext fun u => ?_, funext fun u => ?_⟩
    · by_cases hu : u = t
      · simp [hu]
      · simp [hu, Ne.symm hu]
    · by_cases hm : (d'.header x).type = .mutex ∧ (d.header x).signaled = 0
      · by_cases hu : u = t
        · simp [hu, hm.1, hm.2]
        · simp [hu, hm.1, hm.2]
      · rw [if_neg fun hc => hm hc.2, decide_eq_false hm]
        rfl
  · have hz : os.count x = 0 := count_eq_zero_of_not_mem hx
    rw [if_neg hx]
    simp [account, htl, hz, hb, hls, hx]

theorem Acq.balanced_record (hq : Acq initial l d) (ha : d.acquireAll t os = some d') (hnd : os.Nodup)
    (hsg : ∀ x ∈ os, d.isSignaled x t = true) (hfl : ∀ x ∈ os, ¬ (d.header x).Full t)
    (wt : WaitType) (objs : List (Handle T O)) (x : Handle T O) :
    ((d.record d' t wt objs os).header x).Balanced (initial x)
      ((d.record d' t wt objs os).account l x) := by
  have htk := took_acquireAll hnd ha
  rw [account_record hnd ha]
  by_cases hx : x ∈ os
  · rw [if_pos hx]
    exact (hq.balanced x).acquire (htk.taken x hx) (hsg x hx) (hfl x hx)
  · rw [if_neg hx]
    show (d'.header x).Balanced _ _
    rw [htk.other x hx]
    exact hq.balanced x

variable {wt : WaitType} {objs : List (Handle T O)}

theorem Acq.whole_record (hq : Acq initial l d) (ha : d.acquireAll t os = some d')
    (hnd : os.Nodup) (hsg : ∀ x ∈ os, d.isSignaled x t = true) (hw : wt = .all → os = objs) :
    ∀ g ∈ (d.record d' t wt objs os).grants, g.waitType = .all →
      g.taken = g.objects ∧ g.signaled = g.objects := by
  intro g hg hy
  rw [record_grants (lists_acquireAll hnd ha).1] at hg
  rcases mem_append.1 hg with hg | hg
  · exact hq.whole g hg hy
  · obtain rfl := mem_singleton.1 hg
    have hos := hw hy
    exact ⟨hos, filter_eq_self.2 fun x hx => hsg x (hos ▸ hx)⟩

/-- A mutex that another thread has acquired is not full for this one. -/
theorem Took.not_full (htk : Took d d' t os) (hu : u ≠ t) (hx : ¬ (d.header x).Full u) :
    ¬ (d'.header x).Full u := by
  by_cases hme : x ∈ os
  · rintro ⟨hy, hw, -⟩
    rw [Header.owner_of_acquire (htk.taken x hme) hy] at hw
    exact hu (some.inj hw).symm
  · rw [htk.other x hme]
    exact hx

theorem balanced_unwait (d : Dispatcher T O) (t : T) (st : WaitStatus) (l : Ledger T O)
    (hb : (d.header x).Balanced (initial x) (d.account l x)) :
    ((d.kiUnwaitThread t st).header x).Balanced (initial x) ((d.kiUnwaitThread t st).account l x) := by
  rw [header_unwait]
  exact hb

/-- A thread wakes up without having acquired anything. -/
theorem Acq.unwait (hq : Acq initial l d) (t : T) (st : WaitStatus) :
    Acq initial l (d.kiUnwaitThread t st) := by
  refine ⟨fun x => balanced_unwait d t st l (hq.balanced x), fun u hu x hx => ?_, hq.whole⟩
  obtain ⟨hut, hw⟩ := waiting_unwait hu
  rw [thread_unwait_of_ne hut] at hx
  rw [header_unwait]
  exact hq.below u hw x hx

/-- **Grants keep the accounts.** -/
theorem acq_keptByGrants (initial : Handle T O → Int) (l : Ledger T O) :
    KeptByGrants (Acq initial l) := by
  intro d d' t os st hq _ hw ha hnd hb hsg hh
  have hfl : ∀ x ∈ os, ¬ (d.header x).Full t := fun x hx => hq.below t hw x (hb x hx)
  have htk := took_acquireAll hnd ha
  refine ⟨fun x => balanced_unwait _ t st l (hq.balanced_record ha hnd hsg hfl _ _ x),
    fun u hu x hx => ?_, hq.whole_record ha hnd hsg hh⟩
  obtain ⟨hut, hwu⟩ := waiting_unwait hu
  have hsm : d'.thread u = d.thread u := congrFun htk.thread u
  rw [thread_unwait_of_ne hut] at hx
  rw [header_unwait]
  refine htk.not_full hut (hq.below u ?_ x ?_)
  · rw [Waiting, ← hsm]
    exact hwu
  · rw [← hsm]
    exact hx

theorem Acq.record (hq : Acq initial l d) (hrd : ¬ d.Waiting t)
    (ha : d.acquireAll t os = some d') (hnd : os.Nodup)
    (hsg : ∀ x ∈ os, d.isSignaled x t = true) (hfl : ∀ x ∈ os, ¬ (d.header x).Full t) (hw : wt = .all → os = objs) :
    Acq initial l (d.record d' t wt objs os) := by
  have htk := took_acquireAll hnd ha
  refine ⟨hq.balanced_record ha hnd hsg hfl _ _, fun u hu x hx => ?_, hq.whole_record ha hnd hsg hw⟩
  have hsm : d'.thread u = d.thread u := congrFun htk.thread u
  have hwu : d.Waiting u := by
    rw [Waiting, ← hsm]
    exact hu
  refine htk.not_full (fun hut => hrd (hut ▸ hwu)) (hq.below u hwu x ?_)
  rw [← hsm]
  exact hx

theorem Acq.setThread (hq : Acq initial l d) {x : Thread T O}
    (hst : x.status = .waiting ↔ (d.thread t).status = .waiting)
    (hb : d.Waiting t → x.waitObjects = (d.thread t).waitObjects) :
    Acq initial l (d.setThread t x) := by
  refine ⟨hq.balanced, fun u hu y hy => ?_, hq.whole⟩
  by_cases hut : u = t
  · subst hut
    simp only [Waiting, Dispatcher.setThread, update_self] at hu hy
    have hw := hst.1 hu
    rw [hb hw] at hy
    exact hq.below u hw y hy
  · simp only [Waiting, Dispatcher.setThread, update_of_ne hut] at hu hy
    exact hq.below u hu y hy

variable {call : WaitCall T O}

theorem Acq.block (hq : Acq initial l d)
    (hfl : ∀ x ∈ call.objects, ¬ (d.header x).Full t) : Acq initial l (d.block t call) := by
  have hh : ∀ x, (d.block t call).header x = { d.header x with
      waiters := if x ∈ call.objects then (d.header x).waiters ++ [t] else (d.header x).waiters } := by
    intro x
    simp only [Dispatcher.block]
    split <;> rfl
  refine ⟨fun x => ?_, fun u hu x hx => ?_, hq.whole⟩
  · rw [hh]
    exact hq.balanced x
  · rw [hh]
    by_cases hut : u = t
    · subst hut
      exact hfl x (by simpa [Dispatcher.block] using hx)
    · have hsm : (d.block t call).thread u = d.thread u := update_of_ne hut ..
      rw [Waiting, hsm] at hu
      rw [hsm] at hx
      exact hq.below u hu x hx

theorem Acq.wait (hq : Acq initial l d) (hrd : ¬ d.Waiting t)
    (hnd : call.objects.Nodup) (hfl : ∀ x ∈ d.wanted t call, ¬ (d.header x).Full t)
    {r : Dispatcher T O × Option WaitStatus} (hr : d.keWaitForMultipleObjects t call = some r) :
    Acq initial l r.1 := by
  unfold keWaitForMultipleObjects at hr
  split at hr
  · cases hr
  · split at hr
    · cases hr
      exact hq
    · split at hr
      · next os st hw =>
          obtain ⟨d', ha, rfl⟩ := map_eq_some_iff.1 hr
          obtain ⟨hos, hsg, hb⟩ := satisfiedNow_spec hnd hw
          refine hq.record hrd ha hos hsg (fun x hx => hfl x (hb x hx)) fun hal => ?_
          simp only [satisfiedNow, hal] at hw
          split at hw
          · exact (Prod.mk.inj (some.inj hw)).1.symm
          · cases hw
      · next hw =>
          split at hr
          · cases hr
            exact hq
          · cases hr
            refine hq.block fun x hx => ?_
            rcases (satisfiedNow_none hw).2 x hx with hx | hx
            · exact hfl x hx
            · rintro ⟨hy, how, -⟩
              simp [isSignaled, Header.kiIsObjectSignaled, hy, how] at hx

/-! ## Signaling -/

theorem Acq.setHeader {d₁ : Dispatcher T O} (hq : Acq initial l d) (hh : d₁.header = d.header)
    (hth : d₁.thread = d.thread) (hgr : d₁.grants = d.grants)
    (hb : h.Balanced (initial o) (d₁.account l' o))
    (hother : ∀ x, x ≠ o → d₁.account l' x = d.account l x)
    (hbl : ∀ u, d.Waiting u → o ∈ (d.thread u).waitObjects → ¬ h.Full u) :
    Acq initial l' (d₁.setHeader o h) := by
  have hsl : (d₁.setHeader o h).header o = h := update_self ..
  have hrs : ∀ x, x ≠ o → (d₁.setHeader o h).header x = d.header x := fun x hx =>
    (update_of_ne hx ..).trans (congrFun hh x)
  refine ⟨fun x => ?_, fun u hu x hx => ?_, ?_⟩
  · by_cases hx : x = o
    · subst hx
      rw [hsl]
      exact hb
    · have ha : (d₁.setHeader o h).account l' x = d.account l x := hother x hx
      rw [ha, hrs x hx]
      exact hq.balanced x
  · have hw : d.Waiting u := by
      rw [Waiting, ← hth]
      exact hu
    have hme : x ∈ (d.thread u).waitObjects := by
      rw [← hth]
      exact hx
    by_cases hxo : x = o
    · subst hxo
      rw [hsl]
      exact hbl u hw hme
    · rw [hrs x hxo]
      exact hq.below u hw x hme
  · show ∀ g ∈ d₁.grants, _
    rw [hgr]
    exact hq.whole

/-- An object other than a mutex and a semaphore becomes signaled or not. If it is a synchronization
event that becomes signaled, it is set. -/
theorem Acq.setSignaled (hq : Acq initial l d) (hmt : (d.header o).type ≠ .mutex)
    (hsm : (d.header o).type ≠ .semaphore) (n : BitVec 16)
    (hl' : l' = { l with atSet := update l.atSet o (d.takenTotal o) } ∨
      l' = l ∧ (n = 0 ∨ (d.header o).type ≠ .synchronizationEvent)) :
    Acq initial l' (d.setSignaled o n) := by
  refine hq.setHeader rfl rfl rfl ?_ (fun x hx => ?_) fun u _ _ hfl => hmt hfl.1
  · cases hy : (d.header o).type with
    | mutex => exact absurd hy hmt
    | semaphore => exact absurd hy hsm
    | synchronizationEvent =>
      have hb := hq.balanced o
      simp only [Header.Balanced, hy] at hb
      have hle : d.takenTotal o ≤ l.atSet o + 1 := Nat.le_trans (Nat.le_add_right _ _) hb
      rcases hl' with rfl | ⟨rfl, rfl | hne⟩
      · simp only [Header.Balanced, hy, account, update_self]
        split <;> omega
      · simp only [Header.Balanced, hy, if_true, account]
        omega
      · exact absurd hy hne
    | _ => simp only [Header.Balanced, hy]
  · rcases hl' with rfl | ⟨rfl, -⟩
    · simp [account, hx]
    · rfl

/-- Signaling such an object, with the test of its waiters. -/
theorem Acq.signal (hq : Acq initial l d) (hd : d.Inv) (hmt : (d.header o).type ≠ .mutex)
    (hsm : (d.header o).type ≠ .semaphore)
    (hl' : l' = { l with atSet := update l.atSet o (d.takenTotal o) } ∨
      l' = l ∧ (d.header o).type ≠ .synchronizationEvent)
    (hr : d.signal o = some d') :
    (d'.Inv ∧ ∀ x, (d'.header x).type = (d.header x).type) ∧ Acq initial l' d' := by
  refine hd.test_keeping (h := { d.header o with signaled := 1 }) rfl rfl ?_
    (acq_keptByGrants initial l') ?_ hr
  · unfold Header.Open
    split
    · next hy => exact absurd hy hmt
    · exact show (1 : BitVec 16) ≠ 0 by decide
  · refine hq.setSignaled hmt hsm 1 ?_
    rcases hl' with hl' | ⟨hl', hne⟩
    · exact .inl hl'
    · exact .inr ⟨hl', .inr hne⟩

theorem account_release (d : Dispatcher T O) (l : Ledger T O) (t : T) (o x : Handle T O) :
    d.account (l.release t o) x =
      if x = o then { d.account l x with
        released := update (d.account l x).released t ((d.account l x).released t + 1) }
      else d.account l x := by
  by_cases hx : x = o
  · subst hx
    rw [if_pos rfl]
    simp only [account, Ledger.release, Account.mk.injEq, true_and, and_true]
    funext u
    by_cases hu : u = t
    · subst hu
      simp
    · simp [hu]
  · rw [if_neg hx]
    simp only [account, Ledger.release, Account.mk.injEq, true_and, and_true]
    funext u
    by_cases hu : u = t
    · subst hu
      simp [hx]
    · simp [hu]

theorem account_setMutexList (d : Dispatcher T O) (l : Ledger T O) (t : T) (o x : Handle T O) :
    (d.setMutexList t ((d.mutexList t).erase o)).account l x =
      if x = o then { d.account l x with
        listed := update (d.account l x).listed t ((d.account l x).listed t - 1) }
      else d.account l x := by
  by_cases hx : x = o
  · subst hx
    rw [if_pos rfl]
    refine congrArg (Account.mk _ _ _ _ _) (funext fun u => ?_)
    by_cases hu : u = t
    · subst hu
      simp [setMutexList, account]
    · simp [setMutexList, account, hu]
  · rw [if_neg hx]
    refine congrArg (Account.mk _ _ _ _ _) (funext fun u => ?_)
    by_cases hu : u = t
    · subst hu
      simp [setMutexList, count_erase_of_ne hx]
    · simp [setMutexList, hu]

theorem Acq.releaseMutex (hq : Acq initial l d) (hd : d.Inv) (hrd : ¬ d.Waiting t)
    (hy : (d.header o).type = .mutex) (hr : d.keReleaseMutex t o = some d') :
    Acq initial (l.release t o) d' := by
  simp only [keReleaseMutex] at hr
  split at hr
  · cases hr
  · next hw =>
      have hw : (d.header o).ownerThread = some t := not_not.1 hw
      split at hr
      · cases hr
      · next hge =>
          split at hr
          · next hz =>
              have hls : (d.setMutexList t ((d.mutexList t).erase o)).Inv :=
                ⟨⟨hd.mem, hd.nodup, hd.distinct, hd.below⟩, hd.asleep⟩
              refine (hls.test_keeping (h := { d.header o with signaled := 0, ownerThread := none })
                rfl rfl (by simp [Header.Open, hy]) (acq_keptByGrants initial _) ?_ hr).2
              refine hq.setHeader rfl rfl rfl ?_ (fun x hx => ?_) fun u _ _ hfl => ?_
              · rw [account_setMutexList, if_pos rfl, account_release, if_pos rfl]
                exact (hq.balanced o).releaseLast hy hw hz
              · rw [account_setMutexList, if_neg hx, account_release, if_neg hx]
              · cases hfl.2.1
          · next hne =>
              cases hr
              refine hq.setHeader rfl rfl rfl ?_ (fun x hx => ?_) fun u hu _ hfl => ?_
              · rw [account_release, if_pos rfl]
                exact (hq.balanced o).releaseNested hy hw hne (Int.not_lt.1 hge)
              · rw [account_release, if_neg hx]
              · -- the owner is not waiting
                have hu' : (d.header o).ownerThread = some u := hfl.2.1
                rw [hw] at hu'
                exact hrd (some.inj hu' ▸ hu)

theorem Acq.releaseSemaphore (hq : Acq initial l d) (hd : d.Inv)
    (hy : (d.header o).type = .semaphore) {n : Nat}
    (hft : ((d.header o).signaled.toNat + n) % 65536 < 32768 →
      0 < (d.header o).signaled.toNat + n ∧ (d.header o).signaled.toNat + n < 32768)
    (hr : d.keReleaseSemaphore o n = some d') :
    Acq initial { l with adjusted := update l.adjusted o (l.adjusted o + n) } d' := by
  simp only [keReleaseSemaphore] at hr
  split at hr
  · cases hr
  · next hge =>
      obtain ⟨hng, hsm⟩ : 0 ≤ (d.header o).signaled.toInt ∧ _ := by
        simpa only [Header.Balanced, hy] using hq.balanced o
      have hmd : ((d.header o).signaled.toNat + n) % 65536 < 32768 := by
        rw [BitVec.toInt_eq_toNat_cond, BitVec.toNat_add, BitVec.toNat_ofNat] at hge
        split at hge <;> omega
      obtain ⟨hpos, hlt⟩ := hft hmd
      have hcount := Header.toInt_add_ofNat hng hlt
      have hne : (d.header o).signaled + BitVec.ofNat 16 n ≠ 0 := by
        intro heq
        have hnt := congrArg BitVec.toNat heq
        rw [BitVec.toNat_add, BitVec.toNat_ofNat] at hnt
        have hz : (0 : BitVec 16).toNat = 0 := rfl
        omega
      refine (hd.test_keeping (h := { d.header o with
        signaled := (d.header o).signaled + BitVec.ofNat 16 n }) rfl rfl ?_
        (acq_keptByGrants initial _) ?_ hr).2
      · simpa [Header.Open, hy] using hne
      · refine hq.setHeader rfl rfl rfl ?_ (fun x hx => ?_) fun u _ _ hfl => ?_
        · simp only [Header.Balanced, hy, account, update_self, hcount] at hsm ⊢
          push_cast
          omega
        · simp [account, hx]
        · rw [Header.Full] at hfl
          have hmt := hy.symm.trans hfl.1
          cases hmt

end Dispatcher

/-! ## Runs -/

def Ledger.empty : Ledger T O := ⟨fun _ _ => 0, fun _ => 0, fun _ => 0⟩

/-- The ledger after an action in `d`. A pulse of an event sets it, too. -/
def Ledger.after (l : Ledger T O) (d : Dispatcher T O) : Dispatcher.Action T O → Ledger T O
  | .setEvent o => { l with atSet := update l.atSet o (d.takenTotal o) }
  | .pulseEvent o => { l with atSet := update l.atSet o (d.takenTotal o) }
  | .releaseMutex t o => l.release t o
  | .releaseSemaphore o n => { l with adjusted := update l.adjusted o (l.adjusted o + n) }
  | _ => l

structure AcquisitionHistory (T O : Type) where
  dispatcher : Dispatcher T O
  ledger : Ledger T O

namespace AcquisitionHistory

open Dispatcher

variable {h h' : AcquisitionHistory T O} {a : Action T O} {d₀ : Dispatcher T O}

def step (h : AcquisitionHistory T O) (a : Action T O) : Option (AcquisitionHistory T O) :=
  (h.dispatcher.step a).map fun d => ⟨d, h.ledger.after h.dispatcher a⟩

/-- The objects and threads have been initialized and nothing else: mutexes are free, and semaphores
have a count that is not negative. -/
structure Initialized (d : Dispatcher T O) : Prop extends d.Fresh where
  mutex : ∀ o, (d.header o).type = .mutex →
    (d.header o).signaled = 0 ∧ (d.header o).ownerThread = none
  semaphore : ∀ o, (d.header o).type = .semaphore → 0 ≤ (d.header o).signaled.toInt
  mutexList : ∀ t, d.mutexList t = []
  grants : d.grants = []

/-- **What waits acquire**, in a run from `d₀`. The count of a mutex is what its owner has acquired and
not released, and it is on the mutex list of the owner, once, exactly if the count is positive; the
count of a semaphore is what it had, and what was released, without what waits took; since an event
was last set, at most one thread has acquired it; and a wait for all objects takes all of them, when
all are signaled for the thread. -/
structure AcquisitionsOk (d₀ : Dispatcher T O) (h : AcquisitionHistory T O) : Prop where
  mutex : ∀ o, (h.dispatcher.header o).type = .mutex →
    ((h.dispatcher.header o).ownerThread = none → (h.dispatcher.header o).signaled = 0) ∧
    (∀ t, (h.dispatcher.header o).ownerThread = some t → (h.dispatcher.header o).signaled.toInt =
      (h.dispatcher.takenBy t o : Int) - h.ledger.released t o) ∧
    ∀ t, (h.dispatcher.mutexList t).count o =
      if (h.dispatcher.header o).ownerThread = some t ∧
        0 < (h.dispatcher.header o).signaled.toInt then 1 else 0
  semaphore : ∀ o, (h.dispatcher.header o).type = .semaphore →
    0 ≤ (h.dispatcher.header o).signaled.toInt ∧
    (h.dispatcher.header o).signaled.toInt = (d₀.header o).signaled.toInt + h.ledger.adjusted o -
      h.dispatcher.takenTotal o
  event : ∀ o, (h.dispatcher.header o).type = .synchronizationEvent →
    h.dispatcher.takenTotal o ≤ h.ledger.atSet o + 1
  whole : ∀ g ∈ h.dispatcher.grants, g.waitType = .all →
    g.taken = g.objects ∧ g.signaled = g.objects

/-- No count leaves its 16 bits: nobody asks for a mutex it holds `32767` times over, and a release of
a semaphore that does not crash makes its count positive without wrapping it. -/
def CountsHold (h : AcquisitionHistory T O) : Action T O → Prop
  | .wait t call => ∀ o ∈ h.dispatcher.wanted t call, ¬ (h.dispatcher.header o).Full t
  | .releaseSemaphore o n =>
    ((h.dispatcher.header o).signaled.toNat + n) % 65536 < 32768 →
      0 < (h.dispatcher.header o).signaled.toNat + n ∧
        (h.dispatcher.header o).signaled.toNat + n < 32768
  | _ => True

/-- The invariant of a run. -/
def Inv (initial : Handle T O → Int) (h : AcquisitionHistory T O) : Prop :=
  h.dispatcher.Inv ∧ h.dispatcher.Acq initial h.ledger

theorem Inv.start (h₀ : Initialized d₀) :
    Inv (fun o => (d₀.header o).signaled.toInt) ⟨d₀, Ledger.empty⟩ := by
  have hb : ∀ t o, d₀.takenBy t o = 0 := fun t o => by simp [takenBy, h₀.grants]
  have htl : ∀ o, d₀.takenTotal o = 0 := fun o => by simp [takenTotal, h₀.grants]
  refine ⟨h₀.inv, fun o => ?_, fun t ht => absurd ht (h₀.status t), ?_⟩
  · cases hy : (d₀.header o).type with
    | mutex =>
      obtain ⟨hz, hnn⟩ := h₀.mutex o hy
      simp [Header.Balanced, hy, hz, hnn, account, hb, h₀.mutexList, Ledger.empty]
    | semaphore =>
      simpa [Header.Balanced, hy, account, htl, Ledger.empty] using h₀.semaphore o hy
    | synchronizationEvent =>
      simp only [Header.Balanced, hy, account, htl, Ledger.empty]
      split <;> omega
    | _ => simp only [Header.Balanced, hy]
  · simp [h₀.grants]

/-- The contract keeps counts from wrapping to zero. -/
theorem Inv.countsFit {initial : Handle T O → Int} (hI : Inv initial h) (hok : h.CountsHold a) :
    h.dispatcher.CountsFit a := by
  cases a with
  | wait t call =>
    intro o _ hn
    obtain ⟨hy, hw, hcount⟩ := hn
    have hpos := ((Header.balanced_mutex hy).1 (hI.2.balanced o)).2.1 t hw
    rw [hcount] at hpos
    exact absurd hpos (by decide)
  | releaseSemaphore o n =>
    intro heq
    have hnt : ((h.dispatcher.header o).signaled.toNat + n) % 65536 = 0 := by
      simpa [BitVec.toNat_add] using congrArg BitVec.toNat heq
    obtain ⟨hpos, hlt⟩ := hok (by omega)
    omega
  | _ => trivial

omit [DecidableEq T] [DecidableEq O] in
theorem not_semaphore_of_isEvent {d : Dispatcher T O} {o : Handle T O} (ho : d.isEvent o) :
    (d.header o).type ≠ .semaphore := by
  rcases ho with ho | ho
  · simp [ho]
  · simp [ho]

/-- **One step.** -/
theorem Inv.step {initial : Handle T O → Int} (hI : Inv initial h) (hok : h.CountsHold a)
    (hst : h.step a = some h') : Inv initial h' := by
  obtain ⟨d', hsp, rfl⟩ := map_eq_some_iff.1 hst
  obtain ⟨hd, hq⟩ := hI
  refine ⟨hd.step (Inv.countsFit ⟨hd, hq⟩ hok) hsp, ?_⟩
  show d'.Acq initial (h.ledger.after h.dispatcher a)
  cases a with
  | wait t call =>
    simp only [Dispatcher.step] at hsp
    split at hsp
    · next hgr =>
        obtain ⟨r, hr, rfl⟩ := map_eq_some_iff.1 hsp
        refine hq.wait (fun hw => ?_) hgr.2 hok hr
        rw [Waiting, hgr.1] at hw
        cases hw
    · cases hsp
  | setEvent o =>
    simp only [Dispatcher.step] at hsp
    split at hsp
    · next ho => exact (hq.signal hd ho.not_mutex (not_semaphore_of_isEvent ho) (.inl rfl) hsp).2
    · cases hsp
  | resetEvent o =>
    simp only [Dispatcher.step] at hsp
    split at hsp
    · next ho =>
        cases hsp
        exact hq.setSignaled ho.not_mutex (not_semaphore_of_isEvent ho) 0 (.inr ⟨rfl, .inl rfl⟩)
    · cases hsp
  | pulseEvent o =>
    simp only [Dispatcher.step] at hsp
    split at hsp
    · next ho =>
        obtain ⟨d₁, hse, rfl⟩ := map_eq_some_iff.1 hsp
        obtain ⟨⟨-, hy⟩, hq₁⟩ := hq.signal hd ho.not_mutex (not_semaphore_of_isEvent ho) (.inl rfl) hse
        refine hq₁.setSignaled ?_ ?_ 0 (.inr ⟨rfl, .inl rfl⟩)
        · rw [hy]
          exact ho.not_mutex
        · rw [hy]
          exact (not_semaphore_of_isEvent ho)
    · cases hsp
  | releaseMutex t o =>
    simp only [Dispatcher.step] at hsp
    split at hsp
    · next hgr =>
        refine hq.releaseMutex hd (fun hw => ?_) hgr.2 hsp
        rw [Waiting, hgr.1] at hw
        cases hw
    · cases hsp
  | releaseSemaphore o n =>
    simp only [Dispatcher.step] at hsp
    split at hsp
    · next ho => exact hq.releaseSemaphore hd ho hok hsp
    · cases hsp
  | timerExpiry o =>
    simp only [Dispatcher.step] at hsp
    split at hsp
    · next ho => exact (hq.signal hd (by simp [ho]) (by simp [ho]) (.inr ⟨rfl, by simp [ho]⟩) hsp).2
    · cases hsp
  | waitTimeout t =>
    simp only [Dispatcher.step, kepWaitTimerExpiry] at hsp
    split at hsp
    · cases hsp
      exact hq.unwait t .timeout
    · cases hsp
  | userApc t =>
    cases hsp
    simp only [keInsertUserApc]
    split
    · exact hq.unwait t .alerted
    · exact hq
  | kernelApc t del =>
    cases hsp
    simp only [keInsertKernelApc]
    split
    · exact hq.unwait t .kernelApc
    · exact hq
  | requestTermination t =>
    cases hsp
    simp only [kiTerminateThread]
    split
    · exact hq
    · have hpn := hq.setThread (t := t)
        (x := { h.dispatcher.thread t with pendingTermination := true }) Iff.rfl fun _ => rfl
      split
      · exact hpn.unwait t .killed
      · exact hpn
  | terminate t =>
    simp only [Dispatcher.step] at hsp
    split at hsp
    · next hrd =>
        cases hsp
        refine hq.setThread ?_ fun _ => rfl
        rw [hrd]
        exact iff_of_false (fun h => by cases h) (fun h => by cases h)
    · cases hsp
  | cleanUp t pro =>
    simp only [Dispatcher.step, kepCleanUpThread] at hsp
    split at hsp
    · next hgr =>
        obtain ⟨d₁, hsg, hrs⟩ := bind_eq_some_iff.1 hsp
        have hh := hgr.2.1
        obtain ⟨⟨hd₁, hy⟩, hq₁⟩ := hq.signal hd (by simp [hh]) (by simp [hh])
          (.inr ⟨rfl, by simp [hh]⟩) hsg
        cases pro with
        | none =>
          cases hrs
          exact hq₁
        | some p =>
          have hp := (hy p).trans (hgr.2.2 p rfl)
          exact (hq₁.signal hd₁ (by simp [hp]) (by simp [hp]) (.inr ⟨rfl, by simp [hp]⟩) hrs).2
    · cases hsp

theorem acquisitionsOk_of_inv (hI : Inv (fun o => (d₀.header o).signaled.toInt) h) :
    AcquisitionsOk d₀ h := by
  refine ⟨fun o hy => ?_, fun o hy => ?_, fun o hy => ?_, hI.2.whole⟩
  · obtain ⟨hnn, hpos, hsm, hls⟩ := (Header.balanced_mutex hy).1 (hI.2.balanced o)
    refine ⟨hnn, fun t hw => ?_, fun t => ?_⟩
    · have hu := hsm t
      rw [if_pos hw] at hu
      exact hu.symm
    · refine (hls t).trans ?_
      by_cases hw : (h.dispatcher.header o).ownerThread = some t
      · rw [if_pos hw, if_pos ⟨hw, hpos t hw⟩]
      · rw [if_neg hw, if_neg fun hc => hw hc.1]
  · have hb := hI.2.balanced o
    simpa only [Header.Balanced, hy, account] using hb
  · have hb := hI.2.balanced o
    simp only [Header.Balanced, hy] at hb
    exact Nat.le_trans (Nat.le_add_right _ _) hb

/-- **Acquisitions**, in every state reached without a count leaving its 16 bits. -/
theorem acquisitions_ok (h₀ : Initialized d₀)
    (hrun : Reaches step CountsHold ⟨d₀, Ledger.empty⟩ h) : AcquisitionsOk d₀ h :=
  acquisitionsOk_of_inv (hrun.invariant (I := Inv fun o => (d₀.header o).signaled.toInt) (Inv.start h₀)
      fun _ _ _ hI hok hst => hI.step hok hst)

instance (h : Header T) (t : T) : Decidable (h.Full t) :=
  inferInstanceAs (Decidable (_ ∧ _ ∧ _))

/-- An executable test for `CountsHold`. -/
def countsHold (h : AcquisitionHistory T O) : Action T O → Bool
  | .wait t call => (h.dispatcher.wanted t call).all fun o => ¬ (h.dispatcher.header o).Full t
  | .releaseSemaphore o n =>
    0 < (h.dispatcher.header o).signaled.toNat + n ∧
      (h.dispatcher.header o).signaled.toNat + n < 32768
  | _ => true

omit [DecidableEq O] in
theorem countsHold_of_test (h : AcquisitionHistory T O) (a : Action T O)
    (ha : h.countsHold a = true) : h.CountsHold a := by
  cases a with
  | wait t call => simpa [countsHold, CountsHold] using ha
  | releaseSemaphore o n => exact fun _ => of_decide_eq_true ha
  | _ => trivial

/-- A mutex, a semaphore and a synchronization event. -/
def sampleObjects : Fin 3 → Header (Fin 3)
  | 0 => ⟨.mutex, 0, none, []⟩
  | 1 => ⟨.semaphore, 0, none, []⟩
  | 2 => ⟨.synchronizationEvent, 0, none, []⟩

theorem initialized_start : Initialized (start sampleObjects : Dispatcher (Fin 3) (Fin 3)) where
  toFresh := fresh_start (by decide)
  mutex
    | .thread _, hy => by cases hy
    | .object o, hy => by
      revert o
      decide
  semaphore
    | .thread _, hy => by cases hy
    | .object o, hy => by
      revert o
      decide
  mutexList _ := rfl
  grants := rfl

/-- Thread `b` waits for the mutex, the semaphore and the event, and gets them when all are there. -/
def sampleRun (a b mutex semaphore event : Fin 3) : List (Dispatcher.Action (Fin 3) (Fin 3)) :=
  [.wait a (waitFor .any [mutex]), .wait a (waitFor .any [mutex]),
    .wait b (waitFor .all [mutex, semaphore, event]), .releaseSemaphore (.object semaphore) 2,
    .setEvent (.object event), .releaseMutex a (.object mutex), .releaseMutex a (.object mutex)]

theorem acquisitions_ok_sample : ∃ h : AcquisitionHistory (Fin 3) (Fin 3),
    (h.dispatcher.header (.object 0)).ownerThread = some 1 ∧
      h.dispatcher.takenTotal (.object 1) = 1 ∧ AcquisitionsOk (start sampleObjects) h := by
  obtain ⟨h, hrn, hts⟩ := (Option.any_eq_true _ _).1 (show (runChecked step countsHold
    (sampleRun 0 1 0 1 2) ⟨start sampleObjects, Ledger.empty⟩).any (fun h =>
      (h.dispatcher.header (.object 0)).ownerThread = some 1 ∧
        h.dispatcher.takenTotal (.object 1) = 1) = true by decide +kernel)
  obtain ⟨hw, htl⟩ := of_decide_eq_true hts
  exact ⟨h, hw, htl, acquisitions_ok initialized_start (Reaches.of_runChecked countsHold_of_test hrn)⟩

/-- A release of a semaphore by `65537` leaves a count of `1`. -/
theorem semaphore_count_wraps : ∃ h : AcquisitionHistory (Fin 3) (Fin 3),
    Reaches step (fun _ _ => True) ⟨start sampleObjects, Ledger.empty⟩ h ∧
      ¬ AcquisitionsOk (start sampleObjects) h := by
  obtain ⟨h, hrn, hts⟩ := (Option.any_eq_true _ _).1 (show (runChecked step (fun _ _ => true)
    [.releaseSemaphore (.object 1) 65537] ⟨start sampleObjects, Ledger.empty⟩).any (fun h =>
      (h.dispatcher.header (.object 1)).type = .semaphore ∧
      (h.dispatcher.header (.object 1)).signaled = 1 ∧ h.ledger.adjusted (.object 1) = 65537 ∧
        h.dispatcher.takenTotal (.object 1) = 0) = true by decide +kernel)
  obtain ⟨hy, hcount, ha, htl⟩ := of_decide_eq_true hts
  refine ⟨h, Reaches.of_runChecked (fun _ _ _ => trivial) hrn, fun hok => ?_⟩
  have hsm := (hok.semaphore (.object 1) hy).2
  rw [hcount, ha, htl] at hsm
  exact absurd hsm (by decide)

end AcquisitionHistory

end Boron.Ke
