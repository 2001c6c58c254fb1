import Mathlib.Data.List.Basic
import Boron.Lib.Run
import Boron.Ke.Apc

set_option linter.unusedSectionVars false

/-! # Delivery of kernel APCs

For each APC object the arguments of the insertions that were accepted are those its kernel routine
was called with, in the same order, and one more if it is in the queue (`Inv.once`). Together with the
order of the queue and the stack of dispatches that is the invariant of every run in which objects are
initialized again before they are inserted again, and in which no two insertions of one object
overlap (`ApcSystem.apc_delivery`). -/

namespace Boron.Ke

open Function List

namespace ApcSystem

variable {τ α ι : Type} [DecidableEq τ] [DecidableEq α] [DecidableEq ι]

/-! ## What is seen -/

/-- The arguments with which insertions of the object were accepted. -/
def acceptedOf (a : α) (log : List (ApcEvent τ α)) : List ApcArguments :=
  log.filterMap fun e =>
    match e with
    | .accepted b x => if b = a then some x else none
    | _ => none

/-- The arguments with which its kernel routine was called. -/
def calledOf (a : α) (log : List (ApcEvent τ α)) : List ApcArguments :=
  log.filterMap fun e =>
    match e with
    | .kernelRoutine b x => if b = a then some x else none
    | _ => none

section

variable (a b : α) (log : List (ApcEvent τ α)) (x : ApcArguments)

@[simp] theorem acceptedOf_accepted : acceptedOf a (log ++ [ApcEvent.accepted b x]) =
    if b = a then acceptedOf a log ++ [x] else acceptedOf a log := by
  rw [acceptedOf, filterMap_append]
  split
  · next h => simp [acceptedOf, h]
  · next h => simp [acceptedOf, h]

@[simp] theorem calledOf_accepted : calledOf a (log ++ [ApcEvent.accepted b x]) = calledOf a log := by
  simp [calledOf]

@[simp] theorem calledOf_kernelRoutine : calledOf a (log ++ [ApcEvent.kernelRoutine b x]) =
    if b = a then calledOf a log ++ [x] else calledOf a log := by
  rw [calledOf, filterMap_append]
  split
  · next h => simp [calledOf, h]
  · next h => simp [calledOf, h]

@[simp] theorem acceptedOf_kernelRoutine :
    acceptedOf a (log ++ [ApcEvent.kernelRoutine b x]) = acceptedOf a log := by
  simp [acceptedOf]

theorem seen_append {e : ApcEvent τ α} (ha : ∀ b x, e ≠ .accepted b x)
    (hc : ∀ b x, e ≠ .kernelRoutine b x) (a : α) :
    acceptedOf a (log ++ [e]) = acceptedOf a log ∧ calledOf a (log ++ [e]) = calledOf a log := by
  cases e with
  | accepted b x => exact absurd rfl (ha b x)
  | kernelRoutine b x => exact absurd rfl (hc b x)
  | _ => exact ⟨by simp [acceptedOf], by simp [calledOf]⟩

end

/-- A special APC has no normal routine. -/
def Special (apc : α → Apc τ) (a : α) : Prop := (apc a).normalRoutine = none

def Queued (s : ApcSystem τ α ι) (a : α) : Prop :=
  ∃ t, a ∈ (s.thread t).kernelApcQueue ∨ a ∈ (s.thread t).userApcQueue

/-- Only the first of the dispatches that have not returned delivers a normal APC. -/
def FramesOk : List (ApcFrame α) → Prop
  | [] => True
  | f :: rest =>
    f.entry = rest.length ∧ (f.normal = true → rest = []) ∧
      (f.inNormalRoutine = true → f.normal = true) ∧ FramesOk rest

/-! ## Contract and invariant -/

/-- Objects are initialized while nobody uses them, and inserted one call at a time; after a delivery
they are initialized again before they are inserted again. APCs are enabled and disabled outside of
their routines. -/
def Calm (s : ApcSystem τ α ι) : Action τ α ι → Prop
  | .initializeApc a _ _ _ _ _ => ¬ s.Queued a ∧ ∀ i, s.inserting i ≠ some a
  | .insertTest i a _ =>
    s.inserting i = none ∧ (∀ j, s.inserting j ≠ some a) ∧
      ((s.apc a).enqueued = true → s.Queued a)
  | .disable t _ => (s.thread t).frames = []
  | _ => True

/-- What holds of a thread, given the objects and what was seen. -/
structure ThreadOk (apc : α → Apc τ) (log : List (ApcEvent τ α)) (t : τ) (th : ApcThread α) : Prop where
  kernel : ∀ a ∈ th.kernelApcQueue,
    (apc a).thread = t ∧ (apc a).apcMode = .kernel ∧ (apc a).enqueued = true
  user : ∀ a ∈ th.userApcQueue,
    (apc a).thread = t ∧ (apc a).apcMode = .user ∧ (apc a).enqueued = true
  nodup : th.kernelApcQueue.Nodup
  specialsFirst : th.kernelApcQueue.Pairwise fun a b => Special apc b → Special apc a
  depth : th.apcInProgress = th.frames.length
  frames : FramesOk th.frames
  enabled : ∀ f ∈ th.frames, f.normal = true → th.apcDisableCount = 0
  queued : ∀ a ∈ th.kernelApcQueue, acceptedOf a log = calledOf a log ++ [(apc a).arguments]

structure Inv (s : ApcSystem τ α ι) : Prop where
  thread : ∀ t, ThreadOk s.apc s.log t (s.thread t)
  inserting : ∀ i a, s.inserting i = some a →
    (s.apc a).enqueued = false ∧ ∀ j, s.inserting j = some a → j = i
  once : ∀ a, (∀ t, a ∉ (s.thread t).kernelApcQueue) → acceptedOf a s.log = calledOf a s.log
  returned : ∀ t entry exit left, .returned t entry exit left ∈ s.log → entry = exit ∧ left = false

variable {s s' : ApcSystem τ α ι} {t : τ} {a : α} {i : ι} {apc apc' : α → Apc τ}
  {log log' : List (ApcEvent τ α)} {th th' : ApcThread α}

/-- A thread does not notice what happens to objects that are in none of its queues. -/
theorem ThreadOk.congr (h : ThreadOk apc log t th)
    (hp : ∀ a, a ∈ th.kernelApcQueue ∨ a ∈ th.userApcQueue → apc' a = apc a)
    (hlg : ∀ a ∈ th.kernelApcQueue,
      acceptedOf a log' = acceptedOf a log ∧ calledOf a log' = calledOf a log) :
    ThreadOk apc' log' t th where
  kernel a ha := by
    rw [hp a (.inl ha)]
    exact h.kernel a ha
  user a ha := by
    rw [hp a (.inr ha)]
    exact h.user a ha
  nodup := h.nodup
  specialsFirst := by
    refine h.specialsFirst.imp_of_mem fun {a b} ha hb hab => ?_
    rw [Special, Special, hp a (.inl ha), hp b (.inl hb)]
    exact hab
  depth := h.depth
  frames := h.frames
  enabled := h.enabled
  queued a ha := by
    rw [hp a (.inl ha), (hlg a ha).1, (hlg a ha).2]
    exact h.queued a ha

/-- An object that is not marked is in no queue. -/
theorem Inv.not_queued (h : Inv s) (ha : (s.apc a).enqueued = false) : ¬ s.Queued a := by
  rintro ⟨t, hme | hme⟩
  · have := ((h.thread t).kernel a hme).2.2
    rw [ha] at this
    cases this
  · have := ((h.thread t).user a hme).2.2
    rw [ha] at this
    cases this

/-- An object that is in no queue may change; if it is being inserted, it must not be marked. -/
theorem Inv.setApc (h : Inv s) (ha : ¬ s.Queued a) {x : Apc τ}
    (hx : ∀ i, s.inserting i = some a → x.enqueued = false) : Inv (s.setApc a x) := by
  refine ⟨fun t => (h.thread t).congr (fun b hb => ?_) fun _ _ => ⟨rfl, rfl⟩,
    fun i b hi => ⟨?_, (h.inserting i b hi).2⟩, h.once, h.returned⟩
  · refine update_of_ne ?_ _ _
    rintro rfl
    exact ha ⟨t, hb⟩
  · show (update s.apc a x b).enqueued = false
    rw [update_apply]
    split
    · next hb => exact hx i (hb ▸ hi)
    · exact (h.inserting i b hi).1

theorem Inv.setThread (h : Inv s) (hq : th.kernelApcQueue = (s.thread t).kernelApcQueue)
    (hh : ThreadOk s.apc s.log t th) : Inv (s.setThread t th) := by
  refine ⟨fun u => ?_, h.inserting, fun a ha => h.once a fun u hu => ?_, h.returned⟩
  · show ThreadOk s.apc s.log u (update s.thread t th u)
    rw [update_apply]
    split
    · next hu => exact hu ▸ hh
    · exact h.thread u
  · refine ha u ?_
    show a ∈ (update s.thread t th u).kernelApcQueue
    rw [update_apply]
    split
    · next hut =>
        rw [hq, ← hut]
        exact hu
    · exact hu

/-! ## Insertions -/

variable {args : ApcArguments}

theorem Inv.insertTest (h : Inv s) (hc : s.Calm (.insertTest i a args)) : Inv (s.insertTest i a args) := by
  obtain ⟨-, ha, -⟩ := hc
  rw [ApcSystem.insertTest]
  split
  · exact h
  · next hmr =>
      have hmr : (s.apc a).enqueued = false := Bool.not_eq_true _ ▸ hmr
      have hb : Inv (s.setApc a { s.apc a with arguments := args }) :=
        h.setApc (h.not_queued hmr) fun _ _ => hmr
      refine ⟨hb.thread, fun j b hj => ?_, hb.once, hb.returned⟩
      have hother : ∀ k c, k ≠ i → update s.inserting i (some a) k = some c →
          s.inserting k = some c := fun k c hk hkc => by rwa [update_of_ne hk] at hkc
      by_cases hji : j = i
      · subst hji
        have hab : a = b := by simpa [setInserting] using hj
        subst hab
        refine ⟨?_, fun k hk => ?_⟩
        · show (update s.apc a _ a).enqueued = false
          rw [update_self]
          exact hmr
        · by_contra hkj
          exact ha k (hother k a hkj hk)
      · have hold := hother j b hji hj
        have hba : b ≠ a := by
          rintro rfl
          exact ha j hold
        obtain ⟨hcl, hu⟩ := hb.inserting j b hold
        refine ⟨hcl, fun k hk => ?_⟩
        by_cases hki : k = i
        · subst hki
          have hab : a = b := by simpa [setInserting] using hk
          exact absurd hab.symm hba
        · exact hu k (hother k b hki hk)

theorem ThreadOk.enqueueKernel (h : ThreadOk apc log t th) (hh : (apc a).thread = t)
    (hmd : (apc a).apcMode = .kernel) (hw : a ∉ th.kernelApcQueue)
    (hus : a ∉ th.userApcQueue) (hon : acceptedOf a log = calledOf a log)
    (hq : th'.kernelApcQueue = if (apc a).normalRoutine.isNone then a :: th.kernelApcQueue
      else th.kernelApcQueue ++ [a])
    (hrs : th'.userApcQueue = th.userApcQueue ∧ th'.frames = th.frames ∧
      th'.apcInProgress = th.apcInProgress ∧ th'.apcDisableCount = th.apcDisableCount) :
    ThreadOk (update apc a { apc a with enqueued := true })
      (log ++ [ApcEvent.accepted a (apc a).arguments]) t th' := by
  obtain ⟨hu, hf, hp, hd⟩ := hrs
  have hme : ∀ b, b ∈ th'.kernelApcQueue ↔ b = a ∨ b ∈ th.kernelApcQueue := by
    intro b
    rw [hq]
    split
    · exact mem_cons
    · rw [mem_append, mem_singleton, or_comm]
  have hne : ∀ b ∈ th.kernelApcQueue, b ≠ a := by
    rintro b hb rfl
    exact hw hb
  have hsp : ∀ b, Special (update apc a { apc a with enqueued := true }) b ↔ Special apc b := by
    intro b
    rw [Special, Special, update_apply]
    split
    · next hb => rw [hb]
    · rfl
  refine ⟨fun b hb => ?_, fun b hb => ?_, ?_, ?_, hp.trans (h.depth.trans (by rw [hf])), hf ▸ h.frames,
    fun f hme hn => hd.trans (h.enabled f (hf ▸ hme) hn), fun b hb => ?_⟩
  · rcases (hme b).1 hb with rfl | hb
    · rw [update_self]
      exact ⟨hh, hmd, rfl⟩
    · rw [update_of_ne (hne b hb)]
      exact h.kernel b hb
  · rw [hu] at hb
    have hba : b ≠ a := by
      rintro rfl
      exact hus hb
    rw [update_of_ne hba]
    exact h.user b hb
  · rw [hq]
    split
    · exact nodup_cons.2 ⟨hw, h.nodup⟩
    · refine nodup_append.2 ⟨h.nodup, pairwise_singleton _ a, fun b hb c hc => ?_⟩
      obtain rfl := mem_singleton.1 hc
      exact hne b hb
  · simp only [hsp]
    rw [hq]
    split
    · next hkn => exact pairwise_cons.2 ⟨fun _ _ _ => Option.isNone_iff_eq_none.1 hkn,
        h.specialsFirst⟩
    · next hkn =>
        refine pairwise_append.2 ⟨h.specialsFirst, pairwise_singleton _ _, ?_⟩
        intro b _ c hc hnn
        obtain rfl := mem_singleton.1 hc
        exact absurd (Option.isNone_iff_eq_none.2 hnn) hkn
  · rcases (hme b).1 hb with rfl | hb
    · simp [hon]
    · have hba := hne b hb
      rw [acceptedOf_accepted, if_neg hba.symm, calledOf_accepted, update_of_ne hba]
      exact h.queued b hb

theorem ThreadOk.enqueueUser (h : ThreadOk apc log t th) (hh : (apc a).thread = t)
    (hmd : (apc a).apcMode = .user) (hw : a ∉ th.kernelApcQueue)
    (hq : th'.userApcQueue = th.userApcQueue ++ [a])
    (hrs : th'.kernelApcQueue = th.kernelApcQueue ∧ th'.frames = th.frames ∧
      th'.apcInProgress = th.apcInProgress ∧ th'.apcDisableCount = th.apcDisableCount) :
    ThreadOk (update apc a { apc a with enqueued := true }) log t th' := by
  obtain ⟨hk, hf, hp, hd⟩ := hrs
  have ha : ∀ b ∈ th.kernelApcQueue, update apc a { apc a with enqueued := true } b = apc b := by
    intro b hb
    refine update_of_ne ?_ _ _
    rintro rfl
    exact hw hb
  refine ⟨fun b hb => ?_, fun b hb => ?_, hk ▸ h.nodup, ?_, hp.trans (h.depth.trans (by rw [hf])),
    hf ▸ h.frames, fun f hme hn => hd.trans (h.enabled f (hf ▸ hme) hn), fun b hb => ?_⟩
  · rw [hk] at hb
    rw [ha b hb]
    exact h.kernel b hb
  · by_cases hba : b = a
    · subst hba
      rw [update_self]
      exact ⟨hh, hmd, rfl⟩
    · rw [hq, mem_append, mem_singleton, or_iff_left hba] at hb
      rw [update_of_ne hba]
      exact h.user b hb
  · rw [hk]
    refine h.specialsFirst.imp_of_mem fun {b c} hb hc hbc => ?_
    rw [Special, Special, ha b hb, ha c hc]
    exact hbc
  · rw [hk] at hb
    rw [ha b hb]
    exact h.queued b hb

theorem enqueueApc_kernel {x : Apc τ} (th : ApcThread α) (a : α) (now : τ) (hmd : x.apcMode = .kernel) :
    (enqueueApc th x a now).kernelApcQueue =
        (if x.normalRoutine.isNone then a :: th.kernelApcQueue else th.kernelApcQueue ++ [a]) ∧
      (enqueueApc th x a now).userApcQueue = th.userApcQueue ∧
      (enqueueApc th x a now).frames = th.frames ∧
      (enqueueApc th x a now).apcInProgress = th.apcInProgress ∧
      (enqueueApc th x a now).apcDisableCount = th.apcDisableCount := by
  simp only [enqueueApc, hmd]
  split_ifs <;> exact ⟨rfl, rfl, rfl, rfl, rfl⟩

theorem enqueueApc_user {x : Apc τ} (th : ApcThread α) (a : α) (now : τ) (hmd : x.apcMode = .user) :
    (enqueueApc th x a now).userApcQueue = th.userApcQueue ++ [a] ∧
      (enqueueApc th x a now).kernelApcQueue = th.kernelApcQueue ∧
      (enqueueApc th x a now).frames = th.frames ∧
      (enqueueApc th x a now).apcInProgress = th.apcInProgress ∧
      (enqueueApc th x a now).apcDisableCount = th.apcDisableCount := by
  simp only [enqueueApc, hmd]
  split_ifs <;> exact ⟨rfl, rfl, rfl, rfl, rfl⟩

theorem Inv.insertQueue (h : Inv s) {now : τ} (hs : s.insertQueue i now = some s') : Inv s' := by
  obtain ⟨a, hi, hs⟩ := Option.bind_eq_some_iff.1 hs
  obtain ⟨hmr, hun⟩ := h.inserting i a hi
  have hfr := h.not_queued hmr
  have hkr : ∀ t, a ∉ (s.thread t).kernelApcQueue := fun t hme => hfr ⟨t, .inl hme⟩
  have hus : ∀ t, a ∉ (s.thread t).userApcQueue := fun t hme => hfr ⟨t, .inr hme⟩
  have hh := h.thread (s.apc a).thread
  simp only [hkr, hus, or_self, if_false, Option.some.injEq] at hs
  -- insertions that are under way are of other objects
  have hin : ∀ j b, update s.inserting i none j = some b →
      (update s.apc a { s.apc a with enqueued := true } b).enqueued = false ∧
        ∀ k, update s.inserting i none k = some b → k = j := by
    intro j b hj
    have hji : j ≠ i := by
      rintro rfl
      rw [update_self] at hj
      cases hj
    rw [update_of_ne hji] at hj
    obtain ⟨hc, hother⟩ := h.inserting j b hj
    have hba : b ≠ a := by
      rintro rfl
      exact hji (hun j hj)
    refine ⟨by rw [update_of_ne hba]; exact hc, fun k hk => hother k ?_⟩
    have hki : k ≠ i := by
      rintro rfl
      rw [update_self] at hk
      cases hk
    rwa [update_of_ne hki] at hk
  have hother : ∀ t, ∀ b, b ∈ (s.thread t).kernelApcQueue ∨ b ∈ (s.thread t).userApcQueue →
      update s.apc a { s.apc a with enqueued := true } b = s.apc b := by
    intro t b hb
    refine update_of_ne ?_ _ _
    rintro rfl
    exact hfr ⟨t, hb⟩
  cases hmd : (s.apc a).apcMode with
  | kernel =>
    rw [if_pos hmd] at hs
    subst hs
    obtain ⟨hq, hrs⟩ := enqueueApc_kernel (s.thread (s.apc a).thread) a now hmd
    have hw := hh.enqueueKernel rfl hmd (hkr _) (hus _) (h.once a hkr) hq hrs
    have hme : ∀ b, b = a ∨ b ∈ (s.thread (s.apc a).thread).kernelApcQueue →
        b ∈ (enqueueApc (s.thread (s.apc a).thread) (s.apc a) a now).kernelApcQueue := by
      intro b hb
      rw [hq]
      split
      · exact mem_cons.2 hb
      · rw [mem_append, mem_singleton]
        exact hb.symm
    refine ⟨fun t => ?_, hin, fun b hb => ?_, fun t entry exit left hme => ?_⟩
    · show ThreadOk _ _ t (update s.thread (s.apc a).thread _ t)
      rw [update_apply]
      split
      · next ht =>
          subst ht
          exact hw
      · refine (h.thread t).congr (hother t) fun b hb => ?_
        have hba : a ≠ b := by
          rintro rfl
          exact hkr t hb
        exact ⟨(acceptedOf_accepted b a _ _).trans (if_neg hba), calledOf_accepted b a _ _⟩
    · have hu : ∀ t, b ∉ (update s.thread (s.apc a).thread
          (enqueueApc (s.thread (s.apc a).thread) (s.apc a) a now) t).kernelApcQueue := hb
      have hba : a ≠ b := by
        rintro rfl
        have := hu (s.apc a).thread
        rw [update_self] at this
        exact this (hme a (.inl rfl))
      have hold := h.once b fun t ht => by
        have := hu t
        rw [update_apply] at this
        split at this
        · next htt => exact this (hme b (.inr (htt ▸ ht)))
        · exact this ht
      exact ((acceptedOf_accepted b a _ _).trans (if_neg hba)).trans
        (hold.trans (calledOf_accepted b a _ _).symm)
    · refine h.returned t entry exit left ?_
      simpa [record, ApcSystem.setThread, ApcSystem.setApc, setInserting] using hme
  | user =>
    rw [if_neg (by rw [hmd]; decide)] at hs
    subst hs
    obtain ⟨hq, hrs⟩ := enqueueApc_user (s.thread (s.apc a).thread) a now hmd
    have hw := hh.enqueueUser rfl hmd (hkr _) hq hrs
    refine ⟨fun t => ?_, hin, fun b hb => h.once b fun t ht => hb t ?_, h.returned⟩
    · show ThreadOk _ _ t (update s.thread (s.apc a).thread _ t)
      rw [update_apply]
      split
      · next ht =>
          subst ht
          exact hw
      · exact (h.thread t).congr (hother t) fun _ _ => ⟨rfl, rfl⟩
    · show b ∈ (update s.thread (s.apc a).thread _ t).kernelApcQueue
      rw [update_apply]
      split
      · next htt =>
          subst htt
          exact (congrArg (b ∈ ·) hrs.1).mpr ht
      · exact ht

/-! ## Dispatches -/

variable {entry : Nat}

theorem Inv.record_returned (h : Inv s) {exit : Nat} {left : Bool} (he : entry = exit)
    (hlf : left = false) : Inv (s.record (.returned t entry exit left)) := by
  have hsn := seen_append s.log (e := ApcEvent.returned t entry exit left)
    (fun _ _ h => by cases h) fun _ _ h => by cases h
  refine ⟨fun u => (h.thread u).congr (fun _ _ => rfl) fun a _ => hsn a, h.inserting,
    fun a ha => ?_, fun u en ex l hme => ?_⟩
  · exact (hsn a).1.trans ((h.once a ha).trans (hsn a).2.symm)
  · rcases mem_append.1 hme with hme | hme
    · exact h.returned u en ex l hme
    · obtain ⟨rfl, rfl, rfl, rfl⟩ : u = t ∧ en = entry ∧ ex = exit ∧ l = left := by
        simpa using hme
      exact ⟨he, hlf⟩

/-- What the loop takes is the head of the queue. -/
theorem nextApc_eq_some (hn : s.nextApc t = some a) : ∃ rest, (s.thread t).kernelApcQueue = a :: rest ∧
      (¬ Special s.apc a → (s.thread t).apcInProgress = 0 ∧ (s.thread t).apcDisableCount = 0) := by
  rw [nextApc] at hn
  split at hn
  · cases hn
  · next b rest hq =>
      split at hn
      · next htk =>
          cases hn
          refine ⟨rest, hq, fun hp => ?_⟩
          rw [Special, ← Option.isNone_iff_eq_none] at hp
          simpa [hp] using htk
      · cases hn

/-- At the end of the loop the head of the queue is normal, if there is one, and with it all others. -/
theorem Inv.no_special (h : Inv s) (hn : s.nextApc t = none) :
    ∀ a ∈ (s.thread t).kernelApcQueue, ¬ Special s.apc a := by
  intro a ha hp
  rw [nextApc] at hn
  split at hn
  · next hq =>
      rw [hq] at ha
      cases ha
  · next b rest hq =>
      have hb : Special s.apc b := by
        have hfs := (h.thread t).specialsFirst
        rw [hq] at hfs ha
        rcases mem_cons.1 ha with rfl | ha
        · exact hp
        · exact (pairwise_cons.1 hfs).1 a ha hp
      rw [Special, ← Option.isNone_iff_eq_none] at hb
      simp [hb] at hn

/-- **The loop** delivers the head of the queue or ends, in the state in which it found the thread. -/
theorem Inv.dispatchLoop (h : Inv s) {ww : Bool}
    (he : entry = (s.thread t).frames.length) : Inv (s.dispatchLoop t entry ww) := by
  rw [ApcSystem.dispatchLoop]
  split
  · next a hn =>
      obtain ⟨rest, hq, hnr⟩ := nextApc_eq_some hn
      have hh := h.thread t
      have hnt : a ∉ rest := (nodup_cons.1 (hq ▸ hh.nodup)).1
      have hrs : ∀ b ∈ rest, b ∈ (s.thread t).kernelApcQueue ∧ a ≠ b := by
        intro b hb
        refine ⟨by rw [hq]; exact mem_cons_of_mem a hb, ?_⟩
        rintro rfl
        exact hnt hb
      have htl : (s.thread t).kernelApcQueue.tail = rest := by rw [hq, tail_cons]
      have hkn : (s.apc a).normalRoutine.isSome = true →
          (s.thread t).frames = [] ∧ (s.thread t).apcDisableCount = 0 := by
        intro hsm
        obtain ⟨hp, hds⟩ := hnr (Option.isSome_iff_ne_none.1 hsm)
        exact ⟨length_eq_zero_iff.1 (hh.depth.symm.trans hp), hds⟩
      have hhd : a ∈ (s.thread t).kernelApcQueue := by rw [hq]; exact mem_cons_self
      have hc : ∀ b, a ≠ b →
          calledOf b (s.log ++ [ApcEvent.kernelRoutine a (s.apc a).arguments]) = calledOf b s.log := fun b hb =>
        (calledOf_kernelRoutine b a _ _).trans (if_neg hb)
      refine ⟨fun u => ?_, h.inserting, fun b hb => ?_, fun u en ex l hme => ?_⟩
      · show ThreadOk _ _ u (update s.thread t _ u)
        rw [update_apply]
        split
        · next hu =>
            subst hu
            rw [htl]
            refine ⟨fun b hb => hh.kernel b (hrs b hb).1, hh.user,
              (nodup_cons.1 (hq ▸ hh.nodup)).2, (pairwise_cons.1 (hq ▸ hh.specialsFirst)).2,
              congrArg (· + 1) hh.depth,
              ⟨he, fun hsm => (hkn hsm).1, Bool.noConfusion, hh.frames⟩,
              fun f hf hfn => ?_, fun b hb => ?_⟩
            · rcases mem_cons.1 hf with rfl | hf
              · exact (hkn hfn).2
              · exact hh.enabled f hf hfn
            · exact (acceptedOf_kernelRoutine b a _ _).trans ((hh.queued b (hrs b hb).1).trans
                (by rw [← hc b (hrs b hb).2]; rfl))
        · next hu =>
            refine (h.thread u).congr (fun _ _ => rfl) fun b hb => ⟨acceptedOf_kernelRoutine b a _ _, hc b ?_⟩
            rintro rfl
            exact hu (((h.thread u).kernel a hb).1.symm.trans (hh.kernel a hhd).1)
      · have hlg := acceptedOf_kernelRoutine b a s.log (s.apc a).arguments
        by_cases hba : a = b
        · subst hba
          exact hlg.trans ((hh.queued a hhd).trans
            ((calledOf_kernelRoutine a a _ _).trans (if_pos rfl)).symm)
        · refine hlg.trans ((h.once b fun u hu => hb u ?_).trans (hc b hba).symm)
          show b ∈ (update s.thread t _ u).kernelApcQueue
          rw [update_apply]
          split
          · next hut =>
              subst hut
              rw [hq, mem_cons] at hu
              rw [htl]
              exact hu.resolve_left (Ne.symm hba)
          · exact hu
      · refine h.returned u en ex l ?_
        simpa [record, ApcSystem.setThread] using hme
  · next hn =>
      have hh := h.thread t
      refine Inv.record_returned ?_ (he.trans hh.depth.symm) ?_
      · exact h.setThread rfl ⟨hh.kernel, hh.user, hh.nodup, hh.specialsFirst, hh.depth, hh.frames,
          hh.enabled, hh.queued⟩
      · rw [List.any_eq_false]
        intro a ha
        rw [Option.isNone_iff_eq_none]
        exact h.no_special hn a ha

variable {f : ApcFrame α}

theorem Inv.nextIteration (h : Inv s) {rest : List (ApcFrame α)}
    (hf : (s.thread t).frames = f :: rest) : Inv (s.nextIteration t f rest) := by
  have hh := h.thread t
  have hfr : FramesOk (f :: rest) := hf ▸ hh.frames
  have hp : (s.thread t).apcInProgress - 1 = rest.length := by
    rw [hh.depth, hf, length_cons, Nat.add_sub_cancel]
  have htr : Inv (s.setThread t { s.thread t with
      apcInProgress := (s.thread t).apcInProgress - 1, frames := rest }) :=
    h.setThread rfl ⟨hh.kernel, hh.user, hh.nodup, hh.specialsFirst, hp, hfr.2.2.2,
      fun g hg hgn => hh.enabled g (by rw [hf]; exact mem_cons_of_mem f hg) hgn, hh.queued⟩
  rw [ApcSystem.nextIteration]
  refine htr.dispatchLoop ?_
  show f.entry = (update s.thread t _ t).frames.length
  rw [update_self]
  exact hfr.1

theorem Inv.kernelRoutineReturns (h : Inv s) {out : ApcOutcome}
    (hs : s.kernelRoutineReturns t out = some s') : Inv s' := by
  have hh := h.thread t
  rw [ApcSystem.kernelRoutineReturns] at hs
  split at hs
  · cases hs
  · next f rest hf =>
      have hfr : FramesOk (f :: rest) := hf ▸ hh.frames
      split at hs
      · cases hs
      · split at hs
        · next hc =>
            obtain ⟨rou, -, rfl⟩ := Option.map_eq_some_iff.1 hs
            have hnr : f.normal = true := (Bool.and_eq_true _ _ ▸ hc).1
            have htr : Inv (s.setThread t { s.thread t with
                frames := { f with inNormalRoutine := true } :: rest }) := by
              refine h.setThread rfl ⟨hh.kernel, hh.user, hh.nodup, hh.specialsFirst, ?_,
                ⟨hfr.1, hfr.2.1, fun _ => hnr, hfr.2.2.2⟩, fun g hg hgn => ?_, hh.queued⟩
              · rw [hh.depth, hf]
                rfl
              · rcases mem_cons.1 hg with rfl | hg
                · exact hh.enabled f (by rw [hf]; exact mem_cons_self) hnr
                · exact hh.enabled g (by rw [hf]; exact mem_cons_of_mem f hg) hgn
            have hsn := seen_append s.log
              (e := ApcEvent.normalRoutine t rou out.normalContext out.arguments)
              (fun _ _ h => by cases h) fun _ _ h => by cases h
            refine ⟨fun u => (htr.thread u).congr (fun _ _ => rfl) fun a _ => hsn a,
              htr.inserting, fun a ha => ?_, fun u en ex l hme => ?_⟩
            · exact (hsn a).1.trans ((htr.once a ha).trans (hsn a).2.symm)
            · refine h.returned u en ex l ?_
              simpa [record, ApcSystem.setThread] using hme
        · cases hs
          exact h.nextIteration hf

theorem Inv.normalRoutineReturns (h : Inv s) (hs : s.normalRoutineReturns t = some s') : Inv s' := by
  rw [ApcSystem.normalRoutineReturns] at hs
  split at hs
  · cases hs
  · next f rest hf =>
      split at hs
      · cases hs
        exact h.nextIteration hf
      · cases hs

/-! ## Runs -/

/-- The step lemma. -/
theorem Inv.step (h : Inv s) {x : Action τ α ι} (hc : s.Calm x) (hs : s.step x = some s') : Inv s' := by
  cases x with
  | initializeApc a t kr nr nc am =>
    cases hs
    exact h.setApc hc.1 fun i hi => absurd hi (hc.2 i)
  | insertTest i a args =>
    cases hs
    exact h.insertTest hc
  | insertQueue i now => exact h.insertQueue hs
  | dispatch t =>
    cases hs
    exact h.dispatchLoop (h.thread t).depth
  | kernelRoutineReturns t out => exact h.kernelRoutineReturns hs
  | normalRoutineReturns t => exact h.normalRoutineReturns hs
  | disable t count =>
    cases hs
    have hh := h.thread t
    refine h.setThread rfl ⟨hh.kernel, hh.user, hh.nodup, hh.specialsFirst, hh.depth, hh.frames,
      fun f hf => ?_, hh.queued⟩
    rw [show (s.thread t).frames = [] from hc] at hf
    cases hf
  | wait t iw wia wm ws =>
    cases hs
    have hh := h.thread t
    exact h.setThread rfl ⟨hh.kernel, hh.user, hh.nodup, hh.specialsFirst, hh.depth, hh.frames,
      hh.enabled, hh.queued⟩

/-- Nothing has happened yet. -/
structure Start (s : ApcSystem τ α ι) : Prop where
  thread : ∀ t, (s.thread t).kernelApcQueue = [] ∧ (s.thread t).userApcQueue = [] ∧
    (s.thread t).apcInProgress = 0 ∧ (s.thread t).frames = []
  inserting : ∀ i, s.inserting i = none
  log : s.log = []

theorem Start.inv (h : Start s) : Inv s := by
  refine ⟨fun t => ?_, fun i a hi => ?_, fun a _ => by rw [h.log]; rfl, fun t en ex l hme => ?_⟩
  · obtain ⟨hk, hu, hp, hf⟩ := h.thread t
    refine ⟨?_, ?_, by rw [hk]; exact nodup_nil, by rw [hk]; exact .nil, by rw [hp, hf]; rfl,
      by rw [hf]; trivial, ?_, ?_⟩
    · simp [hk]
    · simp [hu]
    · simp [hf]
    · simp [hk]
  · rw [h.inserting i] at hi
    cases hi
  · rw [h.log] at hme
    cases hme

/-- A dispatch that delivers a normal APC is the only one of them, and the first. -/
theorem FramesOk.alone {fs gs : List (ApcFrame α)} (h : FramesOk (fs ++ f :: gs))
    (hf : f.normal = true) : ∀ g ∈ fs ++ gs, g.normal = false := by
  induction fs with
  | nil =>
    rw [h.2.1 hf]
    nofun
  | cons e fs ih =>
    obtain ⟨-, hls, -, hrs⟩ := h
    intro g hg
    rcases mem_cons.1 hg with rfl | hg
    · by_contra hg
      have := hls (Bool.not_eq_false _ ▸ hg)
      simp at this
    · exact ih hrs g hg

/-- What the delivery of APCs promises. -/
structure Delivery (s : ApcSystem τ α ι) : Prop where
  /-- An accepted insertion has led to one call of the kernel routine with its arguments... -/
  once : ∀ a, (∀ t, a ∉ (s.thread t).kernelApcQueue) → acceptedOf a s.log = calledOf a s.log
  /-- ...or is still in the queue. -/
  queued : ∀ t, ∀ a ∈ (s.thread t).kernelApcQueue,
    acceptedOf a s.log = calledOf a s.log ++ [(s.apc a).arguments]
  specialsFirst : ∀ t, (s.thread t).kernelApcQueue.Pairwise fun a b =>
    Special s.apc b → Special s.apc a
  /-- A dispatch that returned left no special APC and `ApcInProgress` as it was. -/
  returned : ∀ t entry exit left, .returned t entry exit left ∈ s.log → entry = exit ∧ left = false
  /-- While a normal routine runs, no other normal APC is in progress, and APCs are enabled. -/
  alone : ∀ t fs f gs, (s.thread t).frames = fs ++ f :: gs → f.inNormalRoutine = true →
    (∀ g ∈ fs ++ gs, g.normal = false) ∧ (s.thread t).apcDisableCount = 0
  /-- An object that is not in a queue is accepted. -/
  again : ∀ i a arguments current, s.Calm (.insertTest i a arguments) → ¬ s.Queued a →
    ∃ s', (s.insertTest i a arguments).insertQueue i current = some s' ∧
      ((s.apc a).apcMode = .kernel → acceptedOf a s'.log = acceptedOf a s.log ++ [arguments])

theorem FramesOk.normal_of_mem {l : List (ApcFrame α)} (h : FramesOk l) (hf : f ∈ l)
    (hn : f.inNormalRoutine = true) : f.normal = true := by
  induction l with
  | nil => cases hf
  | cons e l ih =>
    rcases mem_cons.1 hf with rfl | hf
    · exact h.2.2.1 hn
    · exact ih h.2.2.2 hf

theorem accepted_again (now : τ) (hc : s.Calm (.insertTest i a args)) (hq : ¬ s.Queued a) :
    ∃ s', (s.insertTest i a args).insertQueue i now = some s' ∧
      ((s.apc a).apcMode = .kernel → acceptedOf a s'.log = acceptedOf a s.log ++ [args]) := by
  have hmr : (s.apc a).enqueued = false := by
    by_contra hmr
    exact hq (hc.2.2 (Bool.not_eq_false _ ▸ hmr))
  have hkr : ∀ t, a ∉ (s.thread t).kernelApcQueue := fun t hme => hq ⟨t, .inl hme⟩
  have hu : ∀ t, a ∉ (s.thread t).userApcQueue := fun t hme => hq ⟨t, .inr hme⟩
  have hts : s.insertTest i a args =
      (s.setApc a { s.apc a with arguments := args }).setInserting i (some a) := by
    rw [ApcSystem.insertTest, hmr]
    rfl
  rw [hts, ApcSystem.insertQueue]
  have hin : ((s.setApc a { s.apc a with arguments := args }).setInserting i
      (some a)).inserting i = some a := update_self _ _ _
  have ha : ((s.setApc a { s.apc a with arguments := args }).setInserting i (some a)).apc a =
      { s.apc a with arguments := args } := update_self _ _ _
  rw [hin, Option.bind_some, ha]
  have hnn : ¬ (a ∈ (s.thread (s.apc a).thread).kernelApcQueue ∨
      a ∈ (s.thread (s.apc a).thread).userApcQueue) :=
    not_or.2 ⟨hkr _, hu _⟩
  refine ⟨_, if_neg hnn, fun hmd => ?_⟩
  rw [if_pos hmd]
  exact (acceptedOf_accepted a a _ _).trans (if_pos rfl)

/-- **APC delivery**, in every state of every run. -/
theorem apc_delivery (s₀ s : ApcSystem τ α ι) (hstart : Start s₀) (hr : Reaches step Calm s₀ s) :
    Delivery s := by
  have h : Inv s := hr.invariant (I := Inv) hstart.inv fun _ _ _ hi hc hs => hi.step hc hs
  refine ⟨h.once, fun t => (h.thread t).queued, fun t => (h.thread t).specialsFirst, h.returned,
    fun t fs f gs hfr hn => ?_, fun i a arguments current hc hq => accepted_again current hc hq⟩
  have hme : f ∈ (s.thread t).frames := by simp [hfr]
  have hnr := (h.thread t).frames.normal_of_mem hme hn
  exact ⟨(hfr ▸ (h.thread t).frames).alone hnr, (h.thread t).enabled f hme hnr⟩

/-! ## Runs of one thread -/

section

/-- One thread, a normal APC (`true`) and a special one (`false`). -/
def sample : ApcSystem Unit Bool Unit where
  apc a := keInitializeApc () 1 (if a then some 2 else none) 0 .kernel
  thread _ := ⟨[], [], 0, 0, false, false, .kernel, .other, false, []⟩
  inserting _ := none
  log := []

theorem sample_start : Start sample := ⟨fun _ => ⟨rfl, rfl, rfl, rfl⟩, fun _ => rfl, rfl⟩

/-- Both are inserted and delivered, and the special one is initialized and inserted again. -/
def sampleRun : List (Action Unit Bool Unit) :=
  [.insertTest () true ⟨1, 2⟩, .insertQueue () (), .insertTest () false ⟨3, 4⟩, .insertQueue () (),
    .dispatch (), .kernelRoutineReturns () ⟨none, 0, ⟨3, 4⟩⟩,
    .kernelRoutineReturns () ⟨some 2, 0, ⟨1, 2⟩⟩, .normalRoutineReturns (),
    .initializeApc false () 1 none 0 .kernel, .insertTest () false ⟨5, 6⟩, .insertQueue () ()]

/-- An executable form of the contract. -/
def calmTest (s : ApcSystem Unit Bool Unit) : Action Unit Bool Unit → Bool
  | .initializeApc a _ _ _ _ _ =>
    decide (a ∉ (s.thread ()).kernelApcQueue ∧ a ∉ (s.thread ()).userApcQueue) &&
      s.inserting () != some a
  | .insertTest _ a _ =>
    s.inserting () == none && (!(s.apc a).enqueued || decide (a ∈ (s.thread ()).kernelApcQueue))
  | .disable _ _ => (s.thread ()).frames.isEmpty
  | _ => true

theorem calm_of_calmTest {s : ApcSystem Unit Bool Unit} {x : Action Unit Bool Unit}
    (h : calmTest s x = true) : s.Calm x := by
  cases x with
  | initializeApc a t kr nr nc am =>
    simp only [calmTest, Bool.and_eq_true, decide_eq_true_eq, bne_iff_ne] at h
    refine ⟨?_, fun _ => h.2⟩
    rintro ⟨_, hme | hme⟩
    · exact h.1.1 hme
    · exact h.1.2 hme
  | insertTest i a args =>
    simp only [calmTest, Bool.and_eq_true, beq_iff_eq, Bool.or_eq_true, Bool.not_eq_true',
      decide_eq_true_eq] at h
    refine ⟨h.1, fun j hj => ?_, fun hmr => ⟨(), .inl (h.2.resolve_left ?_)⟩⟩
    · have := h.1.symm.trans hj
      cases this
    · rw [hmr]
      nofun
  | disable t count => exact List.isEmpty_iff.1 h
  | insertQueue i now => trivial
  | dispatch t => trivial
  | kernelRoutineReturns t out => trivial
  | normalRoutineReturns t => trivial
  | wait t iw wia wm ws => trivial

theorem apc_delivery_sample : ∃ s : ApcSystem Unit Bool Unit, Reaches step Calm sample s ∧
      calledOf false s.log = [⟨3, 4⟩] ∧ (s.thread ()).kernelApcQueue = [false] ∧ Delivery s := by
  obtain ⟨s, hrn, hts⟩ := (Option.any_eq_true
    (fun s : ApcSystem Unit Bool Unit => decide (calledOf false s.log = [⟨3, 4⟩] ∧
      (s.thread ()).kernelApcQueue = [false]))
    (runChecked step calmTest sampleRun sample)).1 (by decide +kernel)
  have hrc : Reaches step Calm sample s := .of_runChecked (fun _ _ h => calm_of_calmTest h) hrn
  obtain ⟨hc, hq⟩ := of_decide_eq_true hts
  exact ⟨s, hrc, hc, hq, apc_delivery sample s sample_start hrc⟩

/-- A special APC that was delivered, and that nobody uses any more, is not accepted again. -/
theorem delivered_not_accepted :
    ∃ s : ApcSystem Unit Bool Unit, Reaches step (fun _ _ => True) sample s ∧
      calledOf false s.log = [⟨3, 4⟩] ∧ ¬ s.Queued false ∧ (s.thread ()).frames.length = 0 ∧
      ∀ arguments, s.insertTest () false arguments = s := by
  obtain ⟨s, hrn, hts⟩ := (Option.any_eq_true
    (fun s : ApcSystem Unit Bool Unit => decide (calledOf false s.log = [⟨3, 4⟩] ∧
      (s.thread ()).kernelApcQueue = [] ∧ (s.thread ()).userApcQueue = [] ∧
      (s.thread ()).frames.length = 0 ∧ (s.apc false).enqueued = true))
    (runChecked step (fun _ _ => true) [.insertTest () false ⟨3, 4⟩, .insertQueue () (), .dispatch (),
        .kernelRoutineReturns () ⟨none, 0, ⟨3, 4⟩⟩] sample)).1 (by decide +kernel)
  obtain ⟨hc, hkr, hu, hfr, hmr⟩ := of_decide_eq_true hts
  refine ⟨s, .of_runChecked (fun _ _ _ => trivial) hrn, hc, ?_, hfr, fun arguments => ?_⟩
  · rintro ⟨_, hme | hme⟩
    · rw [hkr] at hme
      cases hme
    · rw [hu] at hme
      cases hme
  · rw [insertTest, hmr]
    rfl

end

end ApcSystem

end Boron.Ke
