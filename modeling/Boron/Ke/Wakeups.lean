import Mathlib.Data.List.Nodup
import Boron.Lib.Run
import Boron.Ke.WaitTest

/-! # No satisfiable waiter sleeps

A service either makes objects less signaled, or signals one object and tests its waiters; either way
no thread is left asleep whose wait the objects satisfy. The 16-bit counts break this in two places: a
mutex looks free again when its owner has acquired it `65536` times over, and a semaphore whose count
wraps to zero is tested as if it were signaled. -/

namespace Boron.Ke

open Function List Option

variable {T O : Type} [DecidableEq T] [DecidableEq O]

namespace Dispatcher

variable {d d' : Dispatcher T O} {t u : T} {o x : Handle T O} {h : Header T}

/-- The lists agree with the threads, and nobody sleeps without reason. -/
structure Inv (d : Dispatcher T O) : Prop extends d.Wf where
  asleep : ∀ t, d.Waiting t → ¬ d.Satisfied t

/-! ## Changing one object -/

theorem Wf.setHeader (hd : d.Wf) (hw : h.waiters = (d.header o).waiters)
    (hb : ∀ t, d.Waiting t → o ∈ (d.thread t).waitObjects → ¬ h.NestedFully t) :
    (d.setHeader o h).Wf := by
  have hsm : ∀ x, ((d.setHeader o h).header x).waiters = (d.header x).waiters := by
    intro x
    by_cases hx : x = o
    · subst hx
      simpa [Dispatcher.setHeader] using hw
    · simp [Dispatcher.setHeader, hx]
  refine ⟨fun u x => ?_, fun x => ?_, hd.distinct, fun u hu x hx => ?_⟩
  · rw [hsm]
    exact hd.mem u x
  · rw [hsm]
    exact hd.nodup x
  · by_cases hxo : x = o
    · subst hxo
      simpa [Dispatcher.setHeader] using hb u hu hx
    · simpa [Dispatcher.setHeader, hxo] using hd.below u hu x hx

theorem isSignaled_setHeader_of_ne (hx : x ≠ o) :
    (d.setHeader o h).isSignaled x u = d.isSignaled x u := by
  simp [isSignaled, Dispatcher.setHeader, hx]

theorem Inv.close (hd : d.Inv) (hw : h.waiters = (d.header o).waiters)
    (hb : ∀ t, d.Waiting t → ¬ h.NestedFully t)
    (hc : ∀ t, d.Waiting t → h.kiIsObjectSignaled t = false) : (d.setHeader o h).Inv := by
  refine ⟨hd.toWf.setHeader hw fun u hu _ => hb u hu, fun u hu hst => ?_⟩
  refine hd.asleep u hu (hst.mono rfl fun x _ hx => ?_)
  by_cases hxo : x = o
  · subst hxo
    have hh : (d.setHeader x h).header x = h := update_self ..
    rw [isSignaled, hh, hc u hu] at hx
    exact absurd hx Bool.false_ne_true
  · rwa [isSignaled_setHeader_of_ne hxo] at hx

theorem Inv.test_keeping (hd : d.Inv) (hy : h.type = (d.header o).type)
    (hw : h.waiters = (d.header o).waiters) (hon : h.Open) {I : Dispatcher T O → Prop}
    (hkp : KeptByGrants I) (hI : I (d.setHeader o h))
    (hr : (d.setHeader o h).kiWaitTest o = some d') :
    (d'.Inv ∧ ∀ x, (d'.header x).type = (d.header x).type) ∧ I d' := by
  have hh : (d.setHeader o h).header o = h := update_self ..
  have hwf : (d.setHeader o h).Wf := by
    refine hd.toWf.setHeader hw fun u _ _ => ?_
    rintro ⟨hmt, -, hcount⟩
    simp only [Header.Open, hmt] at hon
    rw [hon] at hcount
    exact absurd hcount (by decide)
  obtain ⟨⟨d₁, res⟩, hp, rfl⟩ := map_eq_some_iff.1 hr
  unfold kiWaitTestAndGetWaiter at hp
  rw [hh, hw] at hp
  have hts : Testing d o (d.header o).waiters (d.setHeader o h) := by
    refine ⟨hwf, fun u hu => (hd.mem u o).1 hu, hd.nodup o, fun u hu hme hst => ?_, fun _ _ => rfl,
      fun u _ x hxo hx => ?_, fun x => ?_⟩
    · -- a thread that does not wait on the object sees no change
      refine hd.asleep u hu (hst.mono rfl fun x hx hsg => ?_)
      have hxo : x ≠ o := by
        rintro rfl
        exact hme ((hd.mem u x).2 ⟨hu, hx⟩)
      rwa [isSignaled_setHeader_of_ne hxo] at hsg
    · rwa [isSignaled_setHeader_of_ne hxo] at hx
    · by_cases hxo : x = o
      · subst hxo
        rw [hh, hy]
      · simp [Dispatcher.setHeader, hxo]
  obtain ⟨⟨ts, he, ha⟩, hIend⟩ :=
    hts.loop (by rwa [hh]) (fun _ => rfl) hd.asleep hkp hI hp
  exact ⟨⟨⟨he.wf, ha⟩, he.type⟩, hIend⟩

theorem Inv.test (hd : d.Inv) (hy : h.type = (d.header o).type)
    (hw : h.waiters = (d.header o).waiters) (hon : h.Open)
    (hr : (d.setHeader o h).kiWaitTest o = some d') :
    d'.Inv ∧ ∀ x, (d'.header x).type = (d.header x).type :=
  (hd.test_keeping hy hw hon (I := fun _ => True) (fun _ _ _ _ _ _ _ _ _ _ _ _ _ =>
    trivial) trivial hr).1

theorem Inv.signal (hd : d.Inv) (hy : (d.header o).type ≠ .mutex) (hr : d.signal o = some d') :
    d'.Inv ∧ ∀ x, (d'.header x).type = (d.header x).type := by
  refine hd.test (h := { d.header o with signaled := 1 }) rfl rfl ?_ hr
  unfold Header.Open
  split
  · next hmt => exact absurd hmt hy
  · show (1 : BitVec 16) ≠ 0
    decide

theorem Inv.reset (hd : d.Inv) (hy : (d.header o).type ≠ .mutex) : (d.keResetEvent o).Inv := by
  refine hd.close rfl (fun u _ hn => hy hn.1) fun u _ => ?_
  unfold Header.kiIsObjectSignaled
  split
  · next hmt => exact absurd hmt hy
  · rfl

theorem Inv.releaseMutex (hd : d.Inv) (hrd : ¬ d.Waiting t) (hy : (d.header o).type = .mutex)
    (hr : d.keReleaseMutex t o = some d') : d'.Inv := by
  simp only [keReleaseMutex] at hr
  split at hr
  · simp at hr
  · next hw =>
      split at hr
      · simp at hr
      · split at hr
        · have hls : (d.setMutexList t ((d.mutexList t).erase o)).Inv :=
            ⟨⟨hd.mem, hd.nodup, hd.distinct, hd.below⟩, hd.asleep⟩
          refine (hls.test (h := { d.header o with signaled := 0, ownerThread := none }) rfl rfl ?_
            hr).1
          simp [Header.Open, hy]
        · next hcount =>
            cases hr
            have hw : (d.header o).ownerThread = some t := not_not.1 hw
            have hother : ∀ u, d.Waiting u → t ≠ u := by
              rintro u hu rfl
              exact hrd hu
            refine hd.close rfl (fun u hu hn => ?_) fun u hu => ?_
            · have := hn.2.1
              simp only [hw, some.injEq] at this
              exact hother u hu this
            · simpa [Header.kiIsObjectSignaled, hy, hw, hother u hu] using hcount

theorem Inv.releaseSemaphore (hd : d.Inv) (hy : (d.header o).type = .semaphore) {adj : Nat}
    (hft : (d.header o).signaled + BitVec.ofNat 16 adj ≠ 0)
    (hr : d.keReleaseSemaphore o adj = some d') : d'.Inv := by
  simp only [keReleaseSemaphore] at hr
  split at hr
  · simp at hr
  · refine (hd.test (h := { d.header o with
      signaled := (d.header o).signaled + BitVec.ofNat 16 adj }) rfl rfl ?_ hr).1
    simpa [Header.Open, hy] using hft

/-! ## Waking and sleeping -/

theorem Inv.unwait (hd : d.Inv) (t : T) (st : WaitStatus) : (d.kiUnwaitThread t st).Inv := by
  have htk : Took d d t [] := ⟨rfl, fun _ _ => rfl, fun _ hx => absurd hx not_mem_nil⟩
  refine ⟨hd.toWf.wake htk st, fun u hu hst => ?_⟩
  obtain ⟨hut, hw⟩ := waiting_unwait hu
  exact hd.asleep u hw (hst.mono (thread_unwait_of_ne hut st) fun x _ hx => by
    rwa [isSignaled_unwait] at hx)

omit [DecidableEq O] in
theorem Inv.setThread (hd : d.Inv) {thr : Thread T O}
    (hsm : d.Waiting t → thr.waitObjects = (d.thread t).waitObjects ∧
      thr.waitType = (d.thread t).waitType)
    (hss : thr.status = .waiting ↔ (d.thread t).status = .waiting) :
    (d.setThread t thr).Inv := by
  have hw : ∀ u, (d.setThread t thr).Waiting u ↔ d.Waiting u := by
    intro u
    by_cases hut : u = t
    · subst hut
      simpa [Waiting, Dispatcher.setThread] using hss
    · simp [Waiting, Dispatcher.setThread, hut]
  have hb : ∀ u, d.Waiting u → ((d.setThread t thr).thread u).waitObjects = (d.thread u).waitObjects ∧
        ((d.setThread t thr).thread u).waitType = (d.thread u).waitType := by
    intro u hu
    by_cases hut : u = t
    · subst hut
      simpa [Dispatcher.setThread] using hsm hu
    · simp [Dispatcher.setThread, hut]
  refine ⟨⟨fun u x => ?_, hd.nodup, fun u hu => ?_, fun u hu x hx => ?_⟩, fun u hu hst => ?_⟩
  · rw [hw]
    refine (hd.mem u x).trans (and_congr_right fun hu => ?_)
    rw [(hb u hu).1]
  · have hu := (hw u).1 hu
    rw [(hb u hu).1]
    exact hd.distinct u hu
  · have hu := (hw u).1 hu
    rw [(hb u hu).1] at hx
    exact hd.below u hu x hx
  · have hu := (hw u).1 hu
    refine hd.asleep u hu ?_
    unfold Satisfied at hst ⊢
    rwa [(hb u hu).1, (hb u hu).2] at hst

variable {os : List (Handle T O)}

/-- A thread that does not wait takes objects. -/
theorem Inv.took (hd : d.Inv) (hrd : ¬ d.Waiting t)
    (htk : Took d d' t os) (hsg : ∀ x ∈ os, d.isSignaled x t = true)
    (hn : ∀ x ∈ os, ¬ (d.header x).NestedFully t) : d'.Inv := by
  have hw : ∀ u, d'.Waiting u ↔ d.Waiting u := fun u => by rw [Waiting, htk.thread, Waiting]
  have hother : ∀ u, d.Waiting u → u ≠ t := by
    rintro u hu rfl
    exact hrd hu
  refine ⟨⟨fun u x => ?_, fun x => ?_, fun u hu => ?_, fun u hu x hx => ?_⟩, fun u hu hst => ?_⟩
  · rw [htk.waiters, hw, htk.thread]
    exact hd.mem u x
  · rw [htk.waiters]
    exact hd.nodup x
  · rw [htk.thread]
    exact hd.distinct u ((hw u).1 hu)
  · have hu := (hw u).1 hu
    rw [htk.thread] at hx
    exact htk.not_nestedFully (hother u hu) (hd.below u hu x hx)
  · have hu := (hw u).1 hu
    exact hd.asleep u hu (hst.mono (congrFun htk.thread u) fun x _ hx =>
      htk.isSignaled hsg hn (hother u hu) hx)

variable {call : WaitCall T O}

/-- A thread goes to sleep on distinct objects that do not satisfy its wait. -/
theorem Inv.block (hd : d.Inv) (hrd : ¬ d.Waiting t)
    (hnd : call.objects.Nodup) (hn : ∀ x ∈ call.objects, ¬ (d.header x).NestedFully t)
    (hw : ¬ (d.block t call).Satisfied t) : (d.block t call).Inv := by
  have hsl : (d.block t call).thread t = { d.thread t with
      status := .waiting
      waitObjects := call.objects
      waitType := call.waitType
      waitIsAlertable := call.alertable
      waitMode := call.waitMode
      waitStatus := .waiting } := update_self ..
  have hother : ∀ u, u ≠ t → (d.block t call).thread u = d.thread u :=
    fun u hu => update_of_ne hu ..
  have hh : ∀ x, ((d.block t call).header x) = { d.header x with
      waiters := if x ∈ call.objects then (d.header x).waiters ++ [t] else (d.header x).waiters } := by
    intro x
    simp only [Dispatcher.block]
    split <;> rfl
  have hnt : ∀ x, t ∉ (d.header x).waiters := fun x hx => hrd ((hd.mem t x).1 hx).1
  refine ⟨⟨fun u x => ?_, fun x => ?_, fun u hu => ?_, fun u hu x hx => ?_⟩, fun u hu hst => ?_⟩
  · rw [hh]
    by_cases hut : u = t
    · subst hut
      rw [Waiting, hsl]
      by_cases hx : x ∈ call.objects <;> simp [hx, hnt x]
    · rw [Waiting, hother u hut, ← Waiting, ← hd.mem u x]
      by_cases hx : x ∈ call.objects <;> simp [hx, hut]
  · rw [hh]
    simp only
    split
    · refine nodup_append.2 ⟨hd.nodup x, nodup_singleton t, ?_⟩
      rintro a ha b hb rfl
      exact hnt x (mem_singleton.1 hb ▸ ha)
    · exact hd.nodup x
  · by_cases hut : u = t
    · subst hut
      rwa [hsl]
    · rw [Waiting, hother u hut] at hu
      rw [hother u hut]
      exact hd.distinct u hu
  · have hsm : ((d.block t call).header x).NestedFully u ↔ (d.header x).NestedFully u := by
      rw [hh]
      exact Iff.rfl
    rw [hsm]
    by_cases hut : u = t
    · subst hut
      rw [hsl] at hx
      exact hn x hx
    · rw [Waiting, hother u hut] at hu
      rw [hother u hut] at hx
      exact hd.below u hu x hx
  · by_cases hut : u = t
    · exact hw (hut ▸ hst)
    · rw [Waiting, hother u hut] at hu
      refine hd.asleep u hu (hst.mono (hother u hut) fun x _ hx => ?_)
      rwa [isSignaled, hh] at hx

/-- The objects that a wait acquires, now or when it is satisfied. -/
def wanted (d : Dispatcher T O) (t : T) (call : WaitCall T O) : List (Handle T O) :=
  match call.waitType with
  | .any => ((d.firstSignaled t call.objects).map Prod.snd).toList
  | .all => call.objects

omit [DecidableEq O] in
theorem firstSignaled_spec {p : Nat × Handle T O}
    (hp : d.firstSignaled t os = some p) : d.isSignaled p.2 t = true := by
  unfold firstSignaled at hp
  obtain ⟨q, hq, rfl⟩ := map_eq_some_iff.1 hp
  exact List.find?_some (p := fun q : Handle T O × Nat => d.isSignaled q.1 t) hq

omit [DecidableEq O] in
theorem firstSignaled_none (hnn : d.firstSignaled t os = none) : ∀ o ∈ os, d.isSignaled o t = false := by
  intro o ho
  unfold firstSignaled at hnn
  rw [map_eq_none_iff, List.find?_eq_none] at hnn
  obtain ⟨i, hi⟩ := mem_iff_getElem?.1 ho
  exact Bool.eq_false_iff.2 (hnn (o, i) (mk_mem_zipIdx_iff_getElem?.2 hi))

omit [DecidableEq O] in
/-- A wait that is over before it begins finds what it acquires signaled. -/
theorem satisfiedNow_spec {st : WaitStatus}
    (hnd : call.objects.Nodup) (hw : d.satisfiedNow t call = some (os, st)) :
    os.Nodup ∧ (∀ x ∈ os, d.isSignaled x t = true) ∧ ∀ x ∈ os, x ∈ d.wanted t call := by
  unfold satisfiedNow at hw
  unfold wanted
  split at hw
  · next hy =>
      split at hw
      · cases hw
        exact ⟨nodup_nil, by simp, by simp⟩
      · obtain ⟨p, hp, hps⟩ := map_eq_some_iff.1 hw
        cases hps
        refine ⟨nodup_singleton _, fun x hx => ?_, fun x hx => ?_⟩
        · rw [mem_singleton.1 hx]
          exact firstSignaled_spec hp
        · simpa [hy, hp] using hx
  · next hy =>
      split at hw
      · next ha =>
          cases hw
          exact ⟨hnd, List.all_eq_true.1 ha, fun x hx => by simpa [hy] using hx⟩
      · simp at hw

/-- A wait that is not over is not satisfied by its objects, and wants all of them or finds none. -/
theorem satisfiedNow_none (hw : d.satisfiedNow t call = none) : ¬ (d.block t call).Satisfied t ∧
      ∀ x ∈ call.objects, x ∈ d.wanted t call ∨ d.isSignaled x t = false := by
  have hsg : ∀ x, (d.block t call).isSignaled x t = d.isSignaled x t := by
    intro x
    simp only [isSignaled, Dispatcher.block]
    split <;> rfl
  have hh : ((d.block t call).thread t).waitType = call.waitType ∧
      ((d.block t call).thread t).waitObjects = call.objects := by
    simp [Dispatcher.block]
  unfold satisfiedNow at hw
  unfold Satisfied wanted
  rw [hh.1, hh.2]
  simp only [hsg]
  cases hy : call.waitType with
  | any =>
    simp only [hy] at hw
    split at hw
    · simp at hw
    · have hnn := firstSignaled_none (map_eq_none_iff.1 hw)
      refine ⟨?_, fun x hx => .inr (hnn x hx)⟩
      rintro ⟨x, hx, hs⟩
      rw [hnn x hx] at hs
      exact Bool.false_ne_true hs
  | all =>
    simp only [hy] at hw
    split at hw
    · simp at hw
    · next ha => exact ⟨fun hst => ha (List.all_eq_true.2 hst), fun x hx => .inl hx⟩

theorem Inv.wait (hd : d.Inv) (hrd : ¬ d.Waiting t)
    (hnd : call.objects.Nodup) (hn : ∀ x ∈ d.wanted t call, ¬ (d.header x).NestedFully t)
    {r : Dispatcher T O × Option WaitStatus} (hr : d.keWaitForMultipleObjects t call = some r) :
    r.1.Inv := by
  unfold keWaitForMultipleObjects at hr
  split at hr
  · simp at hr
  · split at hr
    · cases hr
      exact hd
    · split at hr
      · next os st hnw =>
          obtain ⟨d', ha, rfl⟩ := map_eq_some_iff.1 hr
          obtain ⟨hos, hsg, hb⟩ := satisfiedNow_spec hnd hnw
          have htk : Took d (d.record d' t call.waitType call.objects os) t os :=
            (took_acquireAll hos ha).congr rfl rfl
          exact hd.took hrd htk hsg fun x hx => hn x (hb x hx)
      · next hnw =>
          obtain ⟨hnt, hw⟩ := satisfiedNow_none hnw
          split at hr
          · cases hr
            exact hd
          · cases hr
            refine hd.block hrd hnd (fun x hx => ?_) hnt
            rcases hw x hx with hx | hx
            · exact hn x hx
            · -- a mutex of the thread's own is signaled for it
              rintro ⟨hy, how, -⟩
              simp [isSignaled, Header.kiIsObjectSignaled, hy, how] at hx

/-! ## Every reachable state -/

/-- No count wraps to zero: nobody asks for a mutex it holds `65535` times over, and no release takes
    a semaphore's count to zero. -/
def CountsFit (d : Dispatcher T O) : Action T O → Prop
  | .wait t call => ∀ o ∈ d.wanted t call, ¬ (d.header o).NestedFully t
  | .releaseSemaphore o adjustment => (d.header o).signaled + BitVec.ofNat 16 adjustment ≠ 0
  | _ => True

/-- Nobody has waited yet. -/
structure Fresh (d : Dispatcher T O) : Prop where
  waiters : ∀ o, (d.header o).waiters = []
  status : ∀ t, ¬ d.Waiting t

omit [DecidableEq O] in
theorem Fresh.inv (hd : d.Fresh) : d.Inv where
  mem t o := by simp [hd.waiters o, hd.status t]
  nodup o := by simp [hd.waiters o]
  distinct t ht := absurd ht (hd.status t)
  below t ht := absurd ht (hd.status t)
  asleep t ht := absurd ht (hd.status t)

omit [DecidableEq T] [DecidableEq O] in
theorem isEvent.not_mutex (ho : d.isEvent o) : (d.header o).type ≠ .mutex := by
  rcases ho with ho | ho <;> rw [ho] <;> decide

/-- **One step.** -/
theorem Inv.step (hd : d.Inv) {a : Action T O} (hft : d.CountsFit a) (hst : d.step a = some d') :
    d'.Inv := by
  cases a with
  | wait t call =>
    simp only [Dispatcher.step] at hst
    split at hst
    · next hgr =>
        obtain ⟨r, hr, rfl⟩ := map_eq_some_iff.1 hst
        refine hd.wait (fun hw => ?_) hgr.2 hft hr
        rw [Waiting, hgr.1] at hw
        exact ThreadStatus.noConfusion hw
    · simp at hst
  | setEvent o =>
    simp only [Dispatcher.step] at hst
    split at hst
    · next ho => exact (hd.signal ho.not_mutex hst).1
    · simp at hst
  | resetEvent o =>
    simp only [Dispatcher.step] at hst
    split at hst
    · next ho =>
        cases hst
        exact hd.reset ho.not_mutex
    · simp at hst
  | pulseEvent o =>
    simp only [Dispatcher.step] at hst
    split at hst
    · next ho =>
        obtain ⟨d₁, hse, rfl⟩ := map_eq_some_iff.1 hst
        obtain ⟨hd₁, hy⟩ := hd.signal ho.not_mutex hse
        exact hd₁.reset (by rw [hy]; exact ho.not_mutex)
    · simp at hst
  | releaseMutex t o =>
    simp only [Dispatcher.step] at hst
    split at hst
    · next hgr =>
        refine hd.releaseMutex (fun hw => ?_) hgr.2 hst
        rw [Waiting, hgr.1] at hw
        exact ThreadStatus.noConfusion hw
    · simp at hst
  | releaseSemaphore o adj =>
    simp only [Dispatcher.step] at hst
    split at hst
    · next ho => exact hd.releaseSemaphore ho hft hst
    · simp at hst
  | timerExpiry o =>
    simp only [Dispatcher.step] at hst
    split at hst
    · next ho => exact (hd.signal (by rw [ho]; decide) hst).1
    · simp at hst
  | waitTimeout t =>
    simp only [Dispatcher.step, kepWaitTimerExpiry] at hst
    split at hst
    · cases hst
      exact hd.unwait t .timeout
    · simp at hst
  | userApc t =>
    cases hst
    simp only [keInsertUserApc]
    split
    · exact hd.unwait t .alerted
    · exact hd
  | kernelApc t del =>
    cases hst
    simp only [keInsertKernelApc]
    split
    · exact hd.unwait t .kernelApc
    · exact hd
  | requestTermination t =>
    cases hst
    simp only [kiTerminateThread]
    split
    · exact hd
    · have hp : (d.setThread t { d.thread t with pendingTermination := true }).Inv :=
        hd.setThread (fun _ => ⟨rfl, rfl⟩) Iff.rfl
      split
      · exact hp.unwait t .killed
      · exact hp
  | terminate t =>
    simp only [Dispatcher.step] at hst
    split at hst
    · next hrd =>
        cases hst
        refine hd.setThread (fun _ => ⟨rfl, rfl⟩) ?_
        rw [hrd]
        exact iff_of_false ThreadStatus.noConfusion ThreadStatus.noConfusion
    · simp at hst
  | cleanUp t pro =>
    simp only [Dispatcher.step, kepCleanUpThread] at hst
    split at hst
    · next hgr =>
        obtain ⟨d₁, hsg, hrs⟩ := bind_eq_some_iff.1 hst
        obtain ⟨hd₁, hy⟩ := hd.signal (by rw [hgr.2.1]; decide) hsg
        cases pro with
        | none =>
          cases hrs
          exact hd₁
        | some p =>
          refine (hd₁.signal ?_ hrs).1
          rw [hy, hgr.2.2 p rfl]
          decide
    · simp at hst

/-- **No satisfiable waiter sleeps**, in any state reached without a count wrapping to zero. -/
theorem no_satisfied_sleeper {d₀ : Dispatcher T O} (hfresh : d₀.Fresh)
    (hrun : Reaches Dispatcher.step CountsFit d₀ d) : ∀ t, d.Waiting t → ¬ d.Satisfied t :=
  (hrun.invariant (I := Inv) hfresh.inv fun _ _ _ hI hC hst => hI.step hC hst).asleep

instance (h : Header T) (t : T) : Decidable (h.NestedFully t) :=
  inferInstanceAs (Decidable (_ ∧ _ ∧ _))

/-- An executable test for `CountsFit`. -/
def countsFit (d : Dispatcher T O) : Action T O → Bool
  | .wait t call => (d.wanted t call).all fun o => ¬ (d.header o).NestedFully t
  | .releaseSemaphore o adjustment => (d.header o).signaled + BitVec.ofNat 16 adjustment ≠ 0
  | _ => true

omit [DecidableEq O] in
theorem countsFit_of_test (d : Dispatcher T O) (a : Action T O) (ha : d.countsFit a = true) :
    d.CountsFit a := by
  cases a with
  | wait t call => simpa [countsFit, CountsFit] using ha
  | releaseSemaphore o adj => simpa [countsFit, CountsFit] using ha
  | _ => trivial

/-! ## Examples -/

/-- A thread that has not waited yet. -/
def newThread : Thread T O where
  status := .ready
  waitObjects := []
  waitType := .any
  waitIsAlertable := false
  waitMode := .kernel
  waitStatus := .success
  pendingTermination := false

/-- Threads that have not waited yet, and the objects given. -/
def start (objects : O → Header T) : Dispatcher T O where
  header
    | .thread _ => ⟨.thread, 0, none, []⟩
    | .object o => objects o
  thread _ := newThread
  mutexList _ := []
  grants := []

omit [DecidableEq T] [DecidableEq O] in
theorem fresh_start {objs : O → Header T} (ho : ∀ o, (objs o).waiters = []) :
    (start objs).Fresh where
  waiters
    | .thread _ => rfl
    | .object o => ho o
  status _ := ThreadStatus.noConfusion

/-- A kernel wait without a time-out. -/
def waitFor (waitType : WaitType) (objects : List O) : WaitCall T O where
  objects := objects.map .object
  waitType := waitType
  alertable := false
  timeout := none
  ownBlocks := false
  waitMode := .kernel

/-- A mutex and a notification event. -/
def sampleObjects : Fin 2 → Header (Fin 3)
  | 0 => ⟨.mutex, 0, none, []⟩
  | 1 => ⟨.notificationEvent, 0, none, []⟩

/-- The mutex goes to the second of its waiters, since the first waits for the event as well. -/
def sampleSteps (a b c : Fin 3) (mutex event : Fin 2) : List (Action (Fin 3) (Fin 2)) :=
  [.wait a (waitFor .any [mutex]), .wait b (waitFor .all [mutex, event]), .wait c (waitFor .any [mutex]),
    .releaseMutex a (.object mutex), .setEvent (.object event)]

theorem no_satisfied_sleeper_sample : ∃ d : Dispatcher (Fin 3) (Fin 2),
    d.Waiting 1 ∧ ¬ d.Waiting 2 ∧ d.isSignaled (.object 1) 1 = true ∧ ¬ d.Satisfied 1 := by
  obtain ⟨d, hrn, hd⟩ : ∃ d, runChecked Dispatcher.step countsFit (sampleSteps 0 1 2 0 1)
      (start sampleObjects) = some d ∧ decide ((d.thread 1).status = .waiting ∧ (d.thread 2).status ≠ .waiting ∧
        d.isSignaled (.object 1) 1 = true) = true :=
    (Option.any_eq_true _ _).1 (by decide +kernel)
  obtain ⟨h1, h2, h3⟩ := of_decide_eq_true hd
  have hfr : (start sampleObjects : Dispatcher (Fin 3) (Fin 2)).Fresh := fresh_start (by decide)
  exact ⟨d, h1, h2, h3, no_satisfied_sleeper hfr (Reaches.of_runChecked countsFit_of_test hrn) 1 h1⟩

/-- The mutex of `nested` and its sleeper. -/
def nestedMutex (n : Nat) : Header (Fin 2) := ⟨.mutex, BitVec.ofNat 16 n, some 0, [1]⟩

def sleeper : Thread (Fin 2) Unit where
  status := .waiting
  waitObjects := [.object ()]
  waitType := .any
  waitIsAlertable := false
  waitMode := .kernel
  waitStatus := .waiting
  pendingTermination := false

/-- Thread `0` has acquired a mutex `n` times, and thread `1` sleeps on it. -/
def nested (n : Nat) (grants : List (Grant (Fin 2) Unit)) : Dispatcher (Fin 2) Unit where
  header
    | .thread _ => ⟨.thread, 0, none, []⟩
    | .object _ => nestedMutex n
  thread
    | 0 => newThread
    | 1 => sleeper
  mutexList
    | 0 => [.object ()]
    | 1 => []
  grants := grants

theorem setHeader_nested (n m : Nat) (grants : List (Grant (Fin 2) Unit)) :
    (nested n grants).setHeader (.object ()) (nestedMutex m) = nested m grants := by
  simp only [Dispatcher.setHeader, nested, Dispatcher.mk.injEq, and_true]
  funext o
  cases o with
  | thread t => simp
  | object o => simp

variable {n : Nat}

theorem acquire_nested (hn : BitVec.ofNat 16 n ≠ 0) (grants : List (Grant (Fin 2) Unit)) :
    (nested n grants).acquire 0 (.object ()) = some (nested (n + 1) grants) := by
  have hmt : (nestedMutex n).kiAcquireObject 0 = some (nestedMutex (n + 1)) := by
    simp [nestedMutex, Header.kiAcquireObject, BitVec.ofNat_add]
  have hh : ¬ ((nestedMutex (n + 1)).type = .mutex ∧
      ((nested n grants).header (.object ())).signaled = 0) := fun h => hn h.2
  show ((nestedMutex n).kiAcquireObject 0).map _ = _
  rw [hmt, map_some, if_neg hh, setHeader_nested]

theorem step_nested (hn : BitVec.ofNat 16 n ≠ 0) (gra : List (Grant (Fin 2) Unit)) :
    ∃ gra', (nested n gra).step (.wait 0 (waitFor .any [()])) = some (nested (n + 1) gra') := by
  have hsg : (nested n gra).isSignaled (.object ()) 0 = true := by
    simp [isSignaled, nested, nestedMutex, Header.kiIsObjectSignaled]
  have hw : (nested n gra).satisfiedNow 0 (waitFor .any [()]) = some ([.object ()], .range 0) := by
    simp [satisfiedNow, waitFor, firstSignaled, hsg]
  have hgr : ((nested n gra).thread 0).status = .ready ∧
      (waitFor .any [()] : WaitCall (Fin 2) Unit).objects.Nodup := ⟨rfl, by simp [waitFor]⟩
  refine ⟨((nested n gra).record (nested (n + 1) gra) 0 .any [.object ()] [.object ()]).grants, ?_⟩
  simp only [Dispatcher.step, if_pos hgr, keWaitForMultipleObjects, hw, acquireAll, acquire_nested hn]
  rfl

theorem reaches_nested (hn : n < 65536) : ∃ gra, Reaches Dispatcher.step
    (fun _ _ => True) (start fun _ => ⟨.mutex, 0, none, []⟩) (nested (n + 1) gra) := by
  induction n with
  | zero =>
    have hrn : ∃ gra, runChecked Dispatcher.step (fun _ _ => true)
        [.wait 0 (waitFor .any [()]), .wait 1 (waitFor .any [()])]
        (start fun _ => ⟨.mutex, 0, none, []⟩) = some (nested 1 gra) := by
      refine ⟨[⟨0, .any, [.object ()], [.object ()], [.object ()]⟩],
        congrArg some (?_ : Dispatcher.mk _ _ _ _ = Dispatcher.mk _ _ _ _)⟩
      congr 1
      · funext o
        cases o with
        | thread t => rfl
        | object o => rfl
      · funext t
        match t with
        | 0 => rfl
        | 1 => rfl
      · funext t
        match t with
        | 0 => rfl
        | 1 => rfl
    obtain ⟨gra, hrn⟩ := hrn
    exact ⟨gra, Reaches.of_runChecked (fun _ _ _ => trivial) hrn⟩
  | succ n ih =>
    obtain ⟨gra, ih⟩ := ih (by omega)
    have hne : BitVec.ofNat 16 (n + 1) ≠ 0 := by
      intro h0
      have hnt : (n + 1) % 65536 = 0 := by simpa using congrArg BitVec.toNat h0
      omega
    obtain ⟨gra', hst⟩ := step_nested hne gra
    exact ⟨gra', ih.tail trivial hst⟩

/-- A semaphore and a signaled notification event. -/
def wrapObjects : Fin 2 → Header (Fin 2)
  | 0 => ⟨.semaphore, 0, none, []⟩
  | 1 => ⟨.notificationEvent, 1, none, []⟩

/-- A release by `65536` takes the count to zero; the first waiter is skipped and the second wakes up. -/
def wrapSteps (a b semaphore event : Fin 2) : List (Action (Fin 2) (Fin 2)) :=
  [.wait a (waitFor .all [semaphore, event]), .wait b (waitFor .any [semaphore]),
    .releaseSemaphore (.object semaphore) 65536]

/-- After `65536` acquisitions by its owner the mutex looks free, and thread `1` sleeps on it; after a
    release whose count wraps to zero thread `0` sleeps on a semaphore with a count of `-1`. -/
theorem satisfied_sleepers :
    (∃ d₀ d : Dispatcher (Fin 2) Unit, d₀.Fresh ∧ Reaches Dispatcher.step (fun _ _ => True) d₀ d ∧
      d.Waiting 1 ∧ d.Satisfied 1) ∧
    ∃ d₀ d : Dispatcher (Fin 2) (Fin 2), d₀.Fresh ∧ Reaches Dispatcher.step (fun _ _ => True) d₀ d ∧
      d.Waiting 0 ∧ d.Satisfied 0 := by
  constructor
  · obtain ⟨grants, hc⟩ := reaches_nested (n := 65535) (by decide)
    refine ⟨_, nested 65536 grants, fresh_start fun _ => rfl, hc, rfl, .object (), ?_, ?_⟩
    · exact mem_singleton_self _
    · simp [isSignaled, nested, nestedMutex, Header.kiIsObjectSignaled]
  · obtain ⟨d, hrn, hd⟩ : ∃ d, runChecked Dispatcher.step (fun _ _ => true) (wrapSteps 0 1 0 1)
        (start wrapObjects) = some d ∧ decide ((d.thread 0).status = .waiting ∧
          (d.thread 0).waitType = .all ∧
          ∀ o ∈ (d.thread 0).waitObjects, d.isSignaled o 0 = true) = true :=
      (Option.any_eq_true _ _).1 (by decide +kernel)
    obtain ⟨hw, hy, hsg⟩ := of_decide_eq_true hd
    refine ⟨_, d, fresh_start (by decide), Reaches.of_runChecked (fun _ _ _ => trivial) hrn, hw, ?_⟩
    simpa [Satisfied, hy] using hsg

end Dispatcher

end Boron.Ke
