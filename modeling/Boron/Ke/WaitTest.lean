import Boron.Ke.Dispatch

/-! # Wait tests

A thread takes what it waits for, and this makes nothing more signaled for anyone else (`Took`). The
loop of a wait test rests on that: a waiter it skipped stays unsatisfiable, and when it stops early its
object is not signaled for those it has not reached (`Testing`). -/

namespace Boron.Ke

open List Option

variable {T O : Type} [DecidableEq T] [DecidableEq O]

/-! ## Taking one object -/

namespace Header

variable {h h' : Header T} {t u : T}

/-- The mutex is held by `t`, and one more acquisition would wrap its count to zero. -/
def NestedFully (h : Header T) (t : T) : Prop :=
  h.type = .mutex ∧ h.ownerThread = some t ∧ h.signaled = -1

theorem type_of_acquire (ha : h.kiAcquireObject t = some h') : h'.type = h.type := by
  unfold kiAcquireObject at ha
  split at ha
  · cases ha
    rfl
  · split at ha
    · simp at ha
    · cases ha
      rfl
  · cases ha
    rfl
  · cases ha
    rfl

theorem waiters_of_acquire (ha : h.kiAcquireObject t = some h') : h'.waiters = h.waiters := by
  unfold kiAcquireObject at ha
  split at ha
  · cases ha
    rfl
  · split at ha
    · simp at ha
    · cases ha
      rfl
  · cases ha
    rfl
  · cases ha
    rfl

/-- A mutex belongs to whoever acquired it. -/
theorem owner_of_acquire (ha : h.kiAcquireObject t = some h') (hy : h'.type = .mutex) :
    h'.ownerThread = some t := by
  have hy' := (type_of_acquire ha).symm.trans hy
  unfold kiAcquireObject at ha
  rw [hy'] at ha
  simp only at ha
  split at ha
  · simp at ha
  · cases ha
    rfl

/-- What a thread acquires becomes signaled for nobody else. -/
theorem signaled_of_acquire (ha : h.kiAcquireObject t = some h')
    (hsg : h.kiIsObjectSignaled t = true) (hn : ¬ h.NestedFully t) (hu : u ≠ t)
    (hsg' : h'.kiIsObjectSignaled u = true) : h.kiIsObjectSignaled u = true := by
  cases hy : h.type with
  | mutex =>
    simp only [kiAcquireObject, hy] at ha
    split at ha
    · simp at ha
    · cases ha
      have hne : t ≠ u := Ne.symm hu
      simp only [kiIsObjectSignaled, hy, decide_eq_true_eq, Bool.or_eq_true,
        some.injEq, hne, or_false] at hsg hsg' ⊢
      by_contra hc
      refine hn ⟨hy, hsg.resolve_left fun h0 => hc (.inl h0), ?_⟩
      bv_omega
  | _ =>
    simp only [kiIsObjectSignaled, hy] at hsg ⊢
    exact hsg

/-- The object is signaled whoever asks. -/
def Open (h : Header T) : Prop :=
  match h.type with
  | .mutex => h.signaled = 0
  | _ => h.signaled ≠ 0

theorem Open.signaled (ho : h.Open) (u : T) : h.kiIsObjectSignaled u = true := by
  unfold Open at ho
  unfold kiIsObjectSignaled
  split at ho <;> simp_all

/-- An open object that a thread acquires has satisfied enough waiters exactly if it is not signaled
    for anyone else any more. -/
theorem enough_of_acquire (ha : h.kiAcquireObject t = some h') (ho : h.Open) {n : Nat}
    (hn : h.type = .synchronizationEvent → n = 1) :
    (h'.kepSatisfiedEnough n = true ∧ ∀ u, u ≠ t → h'.kiIsObjectSignaled u = false) ∨
      (h'.kepSatisfiedEnough n = false ∧ h'.Open) := by
  cases hy : h.type with
  | mutex =>
    left
    simp only [Open, hy] at ho
    simp only [kiAcquireObject, hy, ho] at ha
    split at ha
    · simp at ha
    · cases ha
      refine ⟨by simp [kepSatisfiedEnough], fun u hu => ?_⟩
      have hne : t ≠ u := Ne.symm hu
      simp [kiIsObjectSignaled, hne]
  | semaphore =>
    simp only [kiAcquireObject, hy] at ha
    cases ha
    by_cases h0 : h.signaled - 1 = 0
    · exact .inl ⟨by simpa [kepSatisfiedEnough] using h0,
        fun u _ => by simpa [kiIsObjectSignaled] using h0⟩
    · exact .inr ⟨by simpa [kepSatisfiedEnough] using h0, by simpa [Open] using h0⟩
  | synchronizationEvent =>
    simp only [kiAcquireObject, hy] at ha
    cases ha
    exact .inl ⟨by simp [kepSatisfiedEnough, hn hy], fun u _ => by simp [kiIsObjectSignaled]⟩
  | _ =>
    simp only [kiAcquireObject, hy] at ha
    cases ha
    exact .inr ⟨by simp [kepSatisfiedEnough, hy], ho⟩

end Header

/-! ## Taking several -/

namespace Dispatcher

variable {d d' d₀ : Dispatcher T O} {t u : T} {o x : Handle T O} {os : List (Handle T O)}

/-- `d'` is `d` after `t` has acquired the objects `os`. -/
structure Took (d d' : Dispatcher T O) (t : T) (os : List (Handle T O)) : Prop where
  thread : d'.thread = d.thread
  other : ∀ o, o ∉ os → d'.header o = d.header o
  taken : ∀ o ∈ os, (d.header o).kiAcquireObject t = some (d'.header o)

omit [DecidableEq O] in
/-- What `Took` says does not depend on the mutex lists and the history. -/
theorem Took.congr {d'' : Dispatcher T O} (h : Took d d' t os) (hh : d''.header = d'.header)
    (hth : d''.thread = d'.thread) : Took d d'' t os := by
  refine ⟨hth.trans h.thread, fun x hx => ?_, fun x hx => ?_⟩
  · rw [hh]
    exact h.other x hx
  · rw [hh]
    exact h.taken x hx

theorem took_acquire (h : d.acquire t o = some d') : Took d d' t [o] := by
  unfold acquire at h
  obtain ⟨h', ha, rfl⟩ := map_eq_some_iff.1 h
  have htk : Took d (d.setHeader o h') t [o] := by
    refine ⟨rfl, fun x hx => ?_, fun x hx => ?_⟩
    · exact Function.update_of_ne (by simpa using hx) ..
    · obtain rfl := mem_singleton.1 hx
      simpa [setHeader] using ha
  split
  · exact htk.congr rfl rfl
  · exact htk

theorem took_acquireAll (hnd : os.Nodup) (h : d.acquireAll t os = some d') : Took d d' t os := by
  induction os generalizing d with
  | nil =>
    cases h
    exact ⟨rfl, fun _ _ => rfl, fun _ hx => absurd hx not_mem_nil⟩
  | cons o os ih =>
    obtain ⟨hnt, hnd⟩ := nodup_cons.1 hnd
    simp only [acquireAll] at h
    obtain ⟨d₁, h₁, hrs⟩ := bind_eq_some_iff.1 h
    have hfs := took_acquire h₁
    have hot := ih hnd hrs
    have hsm : ∀ x, x ≠ o → d₁.header x = d.header x :=
      fun x hx => hfs.other x (by simpa using hx)
    refine ⟨hot.thread.trans hfs.thread, fun x hx => ?_, fun x hx => ?_⟩
    · obtain ⟨hxo, hxs⟩ : x ≠ o ∧ x ∉ os := by simpa using hx
      exact (hot.other x hxs).trans (hsm x hxo)
    · by_cases hxo : x = o
      · subst hxo
        rw [hot.other x hnt]
        exact hfs.taken x (mem_singleton_self x)
      · have hxs := (mem_cons.1 hx).resolve_left hxo
        rw [← hsm x hxo]
        exact hot.taken x hxs

theorem Took.type (h : Took d d' t os) (x : Handle T O) : (d'.header x).type = (d.header x).type := by
  by_cases hx : x ∈ os
  · exact Header.type_of_acquire (h.taken x hx)
  · rw [h.other x hx]

theorem Took.waiters (h : Took d d' t os) (x : Handle T O) :
    (d'.header x).waiters = (d.header x).waiters := by
  by_cases hx : x ∈ os
  · exact Header.waiters_of_acquire (h.taken x hx)
  · rw [h.other x hx]

/-- Nothing becomes signaled for another thread. -/
theorem Took.isSignaled (h : Took d d' t os) (hsg : ∀ x ∈ os, d.isSignaled x t = true)
    (hn : ∀ x ∈ os, ¬ (d.header x).NestedFully t) (hu : u ≠ t)
    (hx : d'.isSignaled x u = true) : d.isSignaled x u = true := by
  by_cases hme : x ∈ os
  · exact Header.signaled_of_acquire (h.taken x hme) (hsg x hme) (hn x hme) hu hx
  · rw [Dispatcher.isSignaled, h.other x hme] at hx
    exact hx

theorem Took.not_nestedFully (h : Took d d' t os) (hu : u ≠ t)
    (hx : ¬ (d.header x).NestedFully u) : ¬ (d'.header x).NestedFully u := by
  by_cases hme : x ∈ os
  · rintro ⟨hy, hw, -⟩
    rw [Header.owner_of_acquire (h.taken x hme) hy] at hw
    exact hu (some.inj hw).symm
  · rw [h.other x hme]
    exact hx

/-! ## Waking one thread -/

/-- Is the wait of a thread satisfied? -/
def Satisfied (d : Dispatcher T O) (t : T) : Prop :=
  match (d.thread t).waitType with
  | .any => ∃ o ∈ (d.thread t).waitObjects, d.isSignaled o t = true
  | .all => ∀ o ∈ (d.thread t).waitObjects, d.isSignaled o t = true

def Waiting (d : Dispatcher T O) (t : T) : Prop := (d.thread t).status = .waiting

omit [DecidableEq O] in
theorem Satisfied.mono (h : d'.Satisfied u) (hh : d'.thread u = d.thread u)
    (hsg : ∀ x ∈ (d.thread u).waitObjects, d'.isSignaled x u = true → d.isSignaled x u = true) :
    d.Satisfied u := by
  unfold Satisfied at h ⊢
  rw [hh] at h
  split
  · next hy =>
      simp only [hy] at h
      obtain ⟨x, hx, hs⟩ := h
      exact ⟨x, hx, hsg x hx hs⟩
  · next hy =>
      simp only [hy] at h
      exact fun x hx => hsg x hx (h x hx)

/-- The wait block lists agree with the threads. -/
structure Wf (d : Dispatcher T O) : Prop where
  mem : ∀ t o, t ∈ (d.header o).waiters ↔ d.Waiting t ∧ o ∈ (d.thread t).waitObjects
  nodup : ∀ o, (d.header o).waiters.Nodup
  distinct : ∀ t, d.Waiting t → (d.thread t).waitObjects.Nodup
  below : ∀ t, d.Waiting t → ∀ o ∈ (d.thread t).waitObjects, ¬ (d.header o).NestedFully t

/-- What waking a thread leaves of an object. -/
theorem header_unwait (d : Dispatcher T O) (t : T) (st : WaitStatus) (x : Handle T O) :
    (d.kiUnwaitThread t st).header x =
      { d.header x with
        waiters := if x ∈ (d.thread t).waitObjects then (d.header x).waiters.erase t
          else (d.header x).waiters } := by
  simp only [kiUnwaitThread, setThread, removeBlocks]
  split <;> rfl

theorem isSignaled_unwait (d : Dispatcher T O) (t : T) (st : WaitStatus) (x : Handle T O) (u : T) :
    (d.kiUnwaitThread t st).isSignaled x u = d.isSignaled x u := by
  simp only [isSignaled, header_unwait, Header.kiIsObjectSignaled]

theorem thread_unwait_of_ne (hu : u ≠ t) (st : WaitStatus) :
    (d.kiUnwaitThread t st).thread u = d.thread u :=
  Function.update_of_ne hu ..

theorem not_waiting_unwait (d : Dispatcher T O) (t : T) (st : WaitStatus) :
    ¬ (d.kiUnwaitThread t st).Waiting t := by
  simp [Waiting, kiUnwaitThread, setThread]

theorem waiting_unwait {st : WaitStatus} (hu : (d.kiUnwaitThread t st).Waiting u) :
    u ≠ t ∧ d.Waiting u := by
  have hut : u ≠ t := by
    rintro rfl
    exact not_waiting_unwait d u st hu
  refine ⟨hut, ?_⟩
  rw [Waiting, thread_unwait_of_ne hut] at hu
  exact hu

theorem Wf.wake (h : d.Wf) (htk : Took d d' t os) (st : WaitStatus) : (d'.kiUnwaitThread t st).Wf := by
  have hob : ∀ u, d'.thread u = d.thread u := fun u => congrFun htk.thread u
  refine ⟨fun u x => ?_, fun x => ?_, fun u hu => ?_, fun u hu x hx => ?_⟩
  · rw [header_unwait]
    simp only [htk.waiters, hob]
    by_cases hut : u = t
    · subst hut
      refine iff_of_false ?_ fun hw => not_waiting_unwait d' u st hw.1
      split
      · exact (h.nodup x).not_mem_erase
      · next hx => exact fun hme => hx ((h.mem u x).1 hme).2
    · rw [Waiting, thread_unwait_of_ne hut, hob, ← Waiting, ← h.mem u x]
      split
      · exact mem_erase_of_ne hut
      · exact Iff.rfl
  · rw [header_unwait]
    simp only [htk.waiters]
    split
    · exact (h.nodup x).erase t
    · exact h.nodup x
  · obtain ⟨hut, hw⟩ := waiting_unwait hu
    rw [Waiting, hob] at hw
    rw [thread_unwait_of_ne hut, hob]
    exact h.distinct u hw
  · obtain ⟨hut, hw⟩ := waiting_unwait hu
    rw [Waiting, hob] at hw
    rw [thread_unwait_of_ne hut, hob] at hx
    have hb := htk.not_nestedFully hut (h.below u hw x hx)
    simpa [header_unwait, Header.NestedFully] using hb

/-! ## The loop -/

/-- In the middle of a wait test on `o`, with the threads `ts` still to come; `d₀` is the state before
    `o` was signaled. -/
structure Testing (d₀ : Dispatcher T O) (o : Handle T O) (ts : List T) (d : Dispatcher T O) : Prop where
  wf : d.Wf
  rest : ∀ u ∈ ts, d.Waiting u ∧ o ∈ (d.thread u).waitObjects
  nodup : ts.Nodup
  skipped : ∀ u, d.Waiting u → u ∉ ts → ¬ d.Satisfied u
  thread : ∀ u, d.Waiting u → d.thread u = d₀.thread u
  less : ∀ u, d.Waiting u → ∀ x, x ≠ o → d.isSignaled x u = true → d₀.isSignaled x u = true
  type : ∀ x, (d.header x).type = (d₀.header x).type

variable {ts : List T}

theorem Testing.wake (h : Testing d₀ o (t :: ts) d) (htk : Took d d' t os)
    (hsb : ∀ x ∈ os, x ∈ (d.thread t).waitObjects) (hsg : ∀ x ∈ os, d.isSignaled x t = true)
    (st : WaitStatus) : Testing d₀ o ts (d'.kiUnwaitThread t st) := by
  have hb : ∀ u, d'.thread u = d.thread u := fun u => congrFun htk.thread u
  obtain ⟨hnt, hnd⟩ := nodup_cons.1 h.nodup
  have hwt : ∀ u, (d'.kiUnwaitThread t st).Waiting u → u ≠ t ∧ d.Waiting u ∧
      (d'.kiUnwaitThread t st).thread u = d.thread u := by
    intro u hu
    obtain ⟨hut, hw⟩ := waiting_unwait hu
    refine ⟨hut, ?_, (thread_unwait_of_ne hut st).trans (hb u)⟩
    rwa [Waiting, hb] at hw
  have hls : ∀ u, u ≠ t → ∀ x, (d'.kiUnwaitThread t st).isSignaled x u = true →
      d.isSignaled x u = true := by
    intro u hut x hx
    rw [isSignaled_unwait] at hx
    refine htk.isSignaled hsg (fun y hy => ?_) hut hx
    exact h.wf.below t (h.rest t (mem_cons_self ..)).1 y (hsb y hy)
  refine ⟨h.wf.wake htk st, fun u hu => ?_, hnd, fun u hu hme => ?_, fun u hu => ?_,
    fun u hu x hxo hx => ?_, fun x => ?_⟩
  · obtain ⟨hw, ho⟩ := h.rest u (mem_cons_of_mem _ hu)
    have hut : u ≠ t := fun hut => hnt (hut ▸ hu)
    have hsm : (d'.kiUnwaitThread t st).thread u = d.thread u :=
      (thread_unwait_of_ne hut st).trans (hb u)
    rw [Waiting, hsm]
    exact ⟨hw, ho⟩
  · obtain ⟨hut, hw, hsm⟩ := hwt u hu
    intro hst
    refine h.skipped u hw (by simp [hut, hme]) (hst.mono hsm fun x _ => hls u hut x)
  · obtain ⟨hut, hw, hsm⟩ := hwt u hu
    exact hsm.trans (h.thread u hw)
  · obtain ⟨hut, hw, hsm⟩ := hwt u hu
    exact h.less u hw x hxo (hls u hut x hx)
  · rw [header_unwait]
    exact (htk.type x).trans (h.type x)

omit [DecidableEq O] in
theorem Testing.skip (h : Testing d₀ o (t :: ts) d) (hnt : ¬ d.Satisfied t) : Testing d₀ o ts d := by
  refine ⟨h.wf, fun u hu => h.rest u (mem_cons_of_mem _ hu), h.nodup.of_cons,
    fun u hu hme => ?_, h.thread, h.less, h.type⟩
  by_cases hut : u = t
  · exact hut ▸ hnt
  · exact h.skipped u hu (by simp [hut, hme])

omit [DecidableEq O] in
theorem Testing.stop (h : Testing d₀ o ts d) (ha : ∀ u, d₀.Waiting u → ¬ d₀.Satisfied u)
    (hc : ∀ u, d.Waiting u → d.isSignaled o u = false) : ∀ u, d.Waiting u → ¬ d.Satisfied u := by
  intro u hu hst
  have hh := h.thread u hu
  have hu₀ : d₀.Waiting u := by
    rw [Waiting, ← hh]
    exact hu
  refine ha u hu₀ (hst.mono hh fun x _ hx => ?_)
  refine h.less u hu x ?_ hx
  rintro rfl
  rw [hc u hu] at hx
  exact Bool.false_ne_true hx

/-- What a satisfied wait block leads to: its thread takes the object, and perhaps others it waits
    for, and wakes up. -/
theorem satisfy_cases {r : Dispatcher T O × Bool} (h : d.kiSatisfyWaitBlock t o = some r)
    (hsg : d.isSignaled o t = true) (hme : o ∈ (d.thread t).waitObjects)
    (hnd : (d.thread t).waitObjects.Nodup) :
    (∃ d' os st, r = ((d.record d' t (d.thread t).waitType (d.thread t).waitObjects
        os).kiUnwaitThread t st, true) ∧ d.acquireAll t os = some d' ∧ os.Nodup ∧ o ∈ os ∧
      (∀ x ∈ os, x ∈ (d.thread t).waitObjects) ∧ (∀ x ∈ os, d.isSignaled x t = true) ∧
      ((d.thread t).waitType = .all → os = (d.thread t).waitObjects)) ∨
    r = (d, false) ∧ ¬ d.Satisfied t := by
  simp only [kiSatisfyWaitBlock] at h
  split at h
  · next hy =>
      obtain ⟨d', h', rfl⟩ := map_eq_some_iff.1 h
      refine .inl ⟨d', [o], _, by rw [hy], ?_, by simp, mem_singleton_self o, ?_, ?_, ?_⟩
      · simp [acquireAll, h']
      · intro x hx
        rwa [mem_singleton.1 hx]
      · intro x hx
        rwa [mem_singleton.1 hx]
      · rw [hy]
        exact nofun
  · next hy =>
      split at h
      · next ha =>
          obtain ⟨d', h', rfl⟩ := map_eq_some_iff.1 h
          exact .inl ⟨d', _, _, by rw [hy], h', hnd, hme, fun _ hx => hx,
            List.all_eq_true.1 ha, fun _ => rfl⟩
      · next ha =>
          refine .inr ⟨(some.inj h).symm, fun hst => ha ?_⟩
          simp only [Satisfied, hy] at hst
          exact List.all_eq_true.2 hst

/-- `I` is kept when a thread takes what it waits for and wakes up. -/
def KeptByGrants (I : Dispatcher T O → Prop) : Prop :=
  ∀ (d d' : Dispatcher T O) (t : T) (os : List (Handle T O)) (st : WaitStatus), I d → d.Wf →
    d.Waiting t → d.acquireAll t os = some d' → os.Nodup →
    (∀ x ∈ os, x ∈ (d.thread t).waitObjects) → (∀ x ∈ os, d.isSignaled x t = true) →
    ((d.thread t).waitType = .all → os = (d.thread t).waitObjects) →
    I ((d.record d' t (d.thread t).waitType (d.thread t).waitObjects os).kiUnwaitThread t st)

/-- **The loop of a wait test** leaves no satisfied waiter behind, and keeps what grants keep. -/
theorem Testing.loop (h : Testing d₀ o ts d) (hon : (d.header o).Open) {n : Nat}
    (hn : (d₀.header o).type = .synchronizationEvent → n = 0)
    (hasl : ∀ u, d₀.Waiting u → ¬ d₀.Satisfied u) {I : Dispatcher T O → Prop}
    (hp : KeptByGrants I) (hI : I d) {res : Option T} {r : Dispatcher T O × Option T}
    (hr : d.waitTestLoop o n res ts = some r) :
    (∃ ts', Testing d₀ o ts' r.1 ∧ ∀ u, r.1.Waiting u → ¬ r.1.Satisfied u) ∧ I r.1 := by
  induction ts generalizing d n res with
  | nil =>
    cases hr
    exact ⟨⟨[], h, fun u hu => h.skipped u hu not_mem_nil⟩, hI⟩
  | cons t ts ih =>
    obtain ⟨hw, hme⟩ := h.rest t (mem_cons_self ..)
    simp only [waitTestLoop] at hr
    obtain ⟨r₁, hst, hr⟩ := bind_eq_some_iff.1 hr
    rcases satisfy_cases hst (hon.signaled t) hme (h.wf.distinct t hw) with
      ⟨d', os, st, rfl, hal, hos, ho, hb, hsg, hwh⟩ | ⟨rfl, hnt⟩
    · have ha := took_acquireAll hos hal
      have htk : Took d (d.record d' t (d.thread t).waitType (d.thread t).waitObjects os) t os :=
        ha.congr rfl rfl
      have hnext := h.wake htk hb hsg st
      have hInext := hp d d' t os st hI h.wf hw hal hos hb hsg hwh
      have hty := h.type o
      have he := Header.enough_of_acquire (ha.taken o ho) hon (n := n + 1)
        (fun hy => by rw [hn (hty.symm.trans hy)])
      have hh : ∀ m, (((d.record d' t (d.thread t).waitType (d.thread t).waitObjects
          os).kiUnwaitThread t st).header o).kepSatisfiedEnough m =
          (d'.header o).kepSatisfiedEnough m := by
        intro m
        rw [header_unwait]
        rfl
      simp only [if_true, hh] at hr
      rcases he with ⟨he, hc⟩ | ⟨he, hon'⟩
      · rw [if_pos he] at hr
        cases hr
        refine ⟨⟨ts, hnext, hnext.stop hasl fun u hu => ?_⟩, hInext⟩
        rw [isSignaled_unwait]
        exact hc u (waiting_unwait hu).1
      · rw [if_neg (by simp [he])] at hr
        have hns : (d₀.header o).type = .synchronizationEvent → n + 1 = 0 := by
          -- a synchronization event would have been satisfied enough
          intro hy
          have hy' : (d'.header o).type = .synchronizationEvent :=
            (ha.type o).trans (hty.trans hy)
          simp [Header.kepSatisfiedEnough, hy', hn hy] at he
        refine ih hnext ?_ hns hInext hr
        rw [header_unwait]
        exact hon'
    · exact ih (h.skip hnt) hon hn hI hr

end Dispatcher

end Boron.Ke
