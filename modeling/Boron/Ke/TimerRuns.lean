import Boron.Ke.Timer

/-! # What holds of every run of the timer queue

`Inv` says that the trees hold the enqueued timers in the order of their expiry ticks, and that each
of them has a set pending that was due no later than it expires. A timer leaves the queue in one way
(`Inv.leave`), whether it is cancelled, replaced or signaled, and enters it in one (`Inv.enter`). -/

namespace Boron.Ke

open Function List Option

namespace TimerQueue

variable {K C D : Type} [DecidableEq K] [DecidableEq C]

/-! ## The invariant -/

structure Inv (s : TimerQueue K C D) : Prop where
  enqueued : ∀ k c, (∃ entry ∈ s.timerTree c, entry.timer = k) ↔
    (s.timer k).isEnqueued ∧ (s.timer k).scheduler = c
  key : ∀ c, ∀ entry ∈ s.timerTree c, entry.key = s.keyOf (s.timer entry.timer).expiryTick
  sorted : ∀ c, (s.timerTree c).Pairwise fun a b =>
    a.key < b.key ∧ (s.timer a.timer).expiryTick < (s.timer b.timer).expiryTick
  once : SignalsOnce s.log
  kept : ∀ k, (pending s.log k).isSome ↔ (s.timer k).isEnqueued
  due : ∀ k due, pending s.log k = some due → due ≤ (s.timer k).expiryTick

/-- A timer out of the queue: no tree has it, and the others are as they were. -/
structure Left (s s' : TimerQueue K C D) (k : K) : Prop where
  timerTree : ∀ c, s'.timerTree c = (s.timerTree c).filter (·.timer ≠ k)
  timer : ∀ j, j ≠ k → s'.timer j = s.timer j
  width : s'.width = s.width

omit [DecidableEq C] in
theorem Inv.filter_eq {s : TimerQueue K C D} (h : Inv s) {k : K}
    (hk : (s.timer k).isEnqueued = false) (c : C) :
    (s.timerTree c).filter (·.timer ≠ k) = s.timerTree c := by
  refine filter_eq_self.2 fun entry he => ?_
  have hne : entry.timer ≠ k := by
    intro heq
    have := ((h.enqueued k c).1 ⟨entry, he, heq⟩).1
    rw [hk] at this
    cases this
  simpa using hne

theorem Inv.removeTimer {s : TimerQueue K C D} (h : Inv s) (k : K) :
    Left s (s.kiRemoveTimerTree k) k where
  timerTree := by
    intro c
    by_cases hc : c = (s.timer k).scheduler
    · subst hc
      simp [kiRemoveTimerTree]
    · simp only [kiRemoveTimerTree, update_of_ne hc]
      refine (filter_eq_self.2 fun entry he => ?_).symm
      have hne : entry.timer ≠ k := fun heq =>
        hc ((h.enqueued k c).1 ⟨entry, he, heq⟩).2.symm
      simpa using hne
  timer := fun _ _ => rfl
  width := rfl

theorem Inv.removeIfEnqueued {s : TimerQueue K C D} (h : Inv s) (k : K) :
    Left s (if (s.timer k).isEnqueued then s.kiRemoveTimerTree k else s) k := by
  split
  · exact h.removeTimer k
  · next hk =>
      exact ⟨fun c => (h.filter_eq (by simpa using hk) c).symm, fun _ _ => rfl, rfl⟩

omit [DecidableEq C] in
theorem Left.setTimer {s s' : TimerQueue K C D} {k : K} (h : Left s s' k) (x : KTimer C D) :
    Left s (s'.setTimer k x) k :=
  ⟨h.timerTree, fun j hj => (update_of_ne hj ..).trans (h.timer j hj), h.width⟩

namespace Inv

variable {s s' : TimerQueue K C D} {k : K}

omit [DecidableEq C] in
theorem start (width : KeyWidth) (tf : Nat) (timer : K → KTimer C D) : Inv (start width tf timer) where
  enqueued := by simp [TimerQueue.start]
  key := nofun
  sorted := fun _ => List.Pairwise.nil
  once := trivial
  kept := by simp [TimerQueue.start, pending]
  due := nofun

omit [DecidableEq C] in
/-- **A timer leaves the queue.** -/
theorem leave (h : Inv s) (hlf : Left s s' k) (hk : (s'.timer k).isEnqueued = false)
    (hp : ∀ j, pending s'.log j = if j = k then none else pending s.log j)
    (hon : SignalsOnce s'.log) : Inv s' where
  enqueued := by
    intro j c
    rw [hlf.timerTree c]
    by_cases hj : j = k
    · subst hj
      simp [hk]
    · rw [hlf.timer j hj, ← h.enqueued j c]
      constructor
      · rintro ⟨entry, he, heq⟩
        exact ⟨entry, (mem_filter.1 he).1, heq⟩
      · rintro ⟨entry, he, heq⟩
        exact ⟨entry, mem_filter.2 ⟨he, by simpa [heq] using hj⟩, heq⟩
  key := by
    intro c entry he
    rw [hlf.timerTree c, mem_filter] at he
    rw [hlf.timer _ (by simpa using he.2), keyOf, hlf.width]
    exact h.key c entry he.1
  sorted := by
    intro c
    rw [hlf.timerTree c]
    refine Pairwise.imp_of_mem ?_ ((h.sorted c).sublist filter_sublist)
    intro a b ha hb hab
    have hak : a.timer ≠ k := by simpa using (mem_filter.1 ha).2
    have hbk : b.timer ≠ k := by simpa using (mem_filter.1 hb).2
    rwa [hlf.timer _ hak, hlf.timer _ hbk]
  once := hon
  kept := by
    intro j
    rw [hp j]
    by_cases hj : j = k
    · subst hj
      simp [hk]
    · rw [if_neg hj, hlf.timer j hj]
      exact h.kept j
  due := by
    intro j due hdu
    rw [hp j] at hdu
    by_cases hj : j = k
    · rw [if_pos hj] at hdu
      cases hdu
    · rw [if_neg hj] at hdu
      rw [hlf.timer j hj]
      exact h.due j due hdu

theorem cancel (h : Inv s) (k : K) : Inv (s.kiCancelTimer k).1 := by
  have hlf := (h.removeIfEnqueued k).setTimer
    { (if (s.timer k).isEnqueued then s.kiRemoveTimerTree k else s).timer k with
      isEnqueued := false }
  have hlg : (if (s.timer k).isEnqueued then s.kiRemoveTimerTree k else s).log = s.log := by
    split <;> rfl
  refine h.leave (k := k) ⟨hlf.timerTree, hlf.timer, hlf.width⟩ ?_ ?_ ?_
  · simp [kiCancelTimer, setTimer]
  · intro j
    simp only [kiCancelTimer, hlg, pending, eq_comm (a := k)]
  · simp only [kiCancelTimer, hlg, SignalsOnce]
    exact h.once

theorem cancelAll (h : Inv s) (woken : List K) : Inv (s.cancelAll woken) := by
  induction woken generalizing s with
  | nil => exact h
  | cons k woken ih => exact ih (h.cancel k)

omit [DecidableEq C] in
theorem pending_of_mem (h : Inv s) {c : C} {entry : TimerEntry K}
    (he : entry ∈ s.timerTree c) : ∃ due, pending s.log entry.timer = some due :=
  isSome_iff_exists.1 ((h.kept entry.timer).2 ((h.enqueued entry.timer c).1 ⟨entry, he, rfl⟩).1)

theorem expire (h : Inv s) {c : C} {entry : TimerEntry K} (he : entry ∈ s.timerTree c)
    {now : Nat} (hw : (s.timer entry.timer).expiryTick < now + 100) (woken : List K) :
    Inv (s.expire entry.timer now woken) := by
  obtain ⟨due, hdu⟩ := h.pending_of_mem he
  have hle := h.due _ _ hdu
  have hlf : Left s ((({ s with
      dpcs := s.dpcs ++ (s.timer entry.timer).dpc.toList
      log := .signaled entry.timer now :: s.log } : TimerQueue K C D).setTimer entry.timer
        { s.timer entry.timer with signaled := true, isEnqueued := false }).kiRemoveTimerTree
          entry.timer) entry.timer := by
    have := (h.removeTimer entry.timer).setTimer
      { s.timer entry.timer with signaled := true, isEnqueued := false }
    refine ⟨fun c => ?_, this.timer, this.width⟩
    rw [← this.timerTree c]
    simp [kiRemoveTimerTree, setTimer]
  refine (h.leave hlf ?_ ?_ ?_).cancelAll woken
  · simp [kiRemoveTimerTree, setTimer]
  · intro j
    simp only [kiRemoveTimerTree, setTimer, pending, eq_comm (a := entry.timer)]
  · exact ⟨⟨due, hdu, by omega⟩, h.once⟩

/-- **A timer enters the queue**, after it has left it. -/
theorem enter (h : Inv s) {s₁ : TimerQueue K C D} (hlf : Left s s₁ k) {c : C} {due e : Nat}
    (hst : s.Slot c k due e) {cur : Cursor (TimerEntry K)}
    (hin : insertItem TimerEntry.key (s₁.timerTree c) ⟨s.keyOf e, k⟩ = some cur)
    (htree : s'.timerTree = update s₁.timerTree c cur.toTree)
    (hother : ∀ j, j ≠ k → s'.timer j = s₁.timer j) (hk : (s'.timer k).isEnqueued)
    (hsc : (s'.timer k).scheduler = c) (hep : (s'.timer k).expiryTick = e)
    (hw : s'.width = s₁.width) (hlg : s'.log = .set k due :: s.log) : Inv s' := by
  have hy : ∀ x, s'.keyOf x = s.keyOf x := fun x => by
    rw [keyOf, hw, hlf.width, keyOf]
  have hold : ∀ j, j ≠ k → s'.timer j = s.timer j := fun j hj =>
    (hother j hj).trans (hlf.timer j hj)
  have hrs : ∀ d, ∀ entry ∈ s₁.timerTree d, entry ∈ s.timerTree d ∧ entry.timer ≠ k := by
    intro d entry he
    rw [hlf.timerTree d] at he
    exact ⟨(mem_filter.1 he).1, by simpa using (mem_filter.1 he).2⟩
  have hsrt : ∀ d, (s₁.timerTree d).Pairwise fun a b =>
      a.key < b.key ∧ (s'.timer a.timer).expiryTick < (s'.timer b.timer).expiryTick := by
    intro d
    have hsb : (s₁.timerTree d).Sublist (s.timerTree d) := hlf.timerTree d ▸ filter_sublist
    refine Pairwise.imp_of_mem ?_ ((h.sorted d).sublist hsb)
    intro a b ha hb hab
    rwa [hold _ (hrs d a ha).2, hold _ (hrs d b hb).2]
  -- The tree of `c` around the new entry.
  obtain ⟨l, r, hp, rfl, hl, hr⟩ :=
    insertItem_eq_some hin ((hsrt c).imp fun hab => hab.1)
  have hc : s'.timerTree c = l ++ ⟨s.keyOf e, k⟩ :: r := by
    rw [htree, update_self, Cursor.toTree, reverse_reverse]
  have hd : ∀ d, d ≠ c → s'.timerTree d = s₁.timerTree d := fun d hd => by
    rw [htree, update_of_ne hd]
  refine ⟨?_, ?_, ?_, ?_, ?_, ?_⟩
  · intro j d
    by_cases hj : j = k
    · subst hj
      rw [hsc]
      constructor
      · rintro ⟨entry, he, heq⟩
        refine ⟨hk, ?_⟩
        by_contra hne
        rw [hd d (Ne.symm hne)] at he
        exact (hrs d entry he).2 heq
      · rintro ⟨-, rfl⟩
        exact ⟨⟨s.keyOf e, j⟩, by simp [hc], rfl⟩
    · rw [hold j hj, ← h.enqueued j d]
      have hme : ∀ entry : TimerEntry K, entry.timer = j →
          (entry ∈ s'.timerTree d ↔ entry ∈ s.timerTree d) := by
        intro entry heq
        have hlf' : entry ∈ s₁.timerTree d ↔ entry ∈ s.timerTree d := by
          rw [hlf.timerTree d, mem_filter]
          simp [heq, hj]
        rw [← hlf']
        by_cases hdc : d = c
        · subst hdc
          have hnw : entry ≠ ⟨s.keyOf e, k⟩ := by
            rintro rfl
            exact hj heq.symm
          rw [hc, hp]
          simp [hnw]
        · rw [hd d hdc]
      constructor
      · rintro ⟨entry, he, heq⟩
        exact ⟨entry, (hme entry heq).1 he, heq⟩
      · rintro ⟨entry, he, heq⟩
        exact ⟨entry, (hme entry heq).2 he, heq⟩
  · have hkp : ∀ d, ∀ entry ∈ s₁.timerTree d,
        entry.key = s'.keyOf (s'.timer entry.timer).expiryTick := by
      intro d entry he
      obtain ⟨hme, hne⟩ := hrs d entry he
      rw [hold _ hne, hy]
      exact h.key d entry hme
    intro d entry he
    by_cases hdc : d = c
    · subst hdc
      rw [hc, mem_append, mem_cons] at he
      rcases he with he | rfl | he
      · exact hkp d entry (hp ▸ mem_append_left _ he)
      · rw [hep, hy]
      · exact hkp d entry (hp ▸ mem_append_right _ he)
    · exact hkp d entry (hd d hdc ▸ he)
  · intro d
    by_cases hdc : d = c
    · subst hdc
      have hso := hsrt d
      rw [hp, pairwise_append] at hso
      obtain ⟨hsl, hsr, hlr⟩ := hso
      rw [hc]
      refine pairwise_append.2 ⟨hsl, pairwise_cons.2 ⟨?_, hsr⟩, ?_⟩
      · intro b hb
        obtain ⟨hbs, hbk⟩ := hrs d b (hp ▸ mem_append_right _ hb)
        refine ⟨hr b hb, ?_⟩
        rw [hep, hold _ hbk]
        have hke : s.keyOf e < b.key := hr b hb
        have hor := hst.order b hbs hbk
        have hne : (s.timer b.timer).expiryTick ≠ e := by
          rintro rfl
          exact hst.free b hbs hbk (h.key d b hbs)
        omega
      · intro a ha b hb
        rcases mem_cons.1 hb with rfl | hb
        · obtain ⟨has, hak⟩ := hrs d a (hp ▸ mem_append_left _ ha)
          refine ⟨hl a ha, ?_⟩
          rw [hep, hold _ hak]
          exact (hst.order a has hak).2 (hl a ha)
        · exact hlr a ha b hb
    · rw [hd d hdc]
      exact hsrt d
  · rw [hlg]
    exact h.once
  · intro j
    rw [hlg, pending]
    by_cases hj : j = k
    · subst hj
      simp [hk]
    · rw [if_neg (Ne.symm hj), hold j hj]
      exact h.kept j
  · intro j due' hdu
    rw [hlg, pending] at hdu
    by_cases hj : j = k
    · subst hj
      rw [if_pos rfl] at hdu
      cases hdu
      rw [hep]
      exact hst.due_le
    · rw [if_neg (Ne.symm hj)] at hdu
      rw [hold j hj]
      exact h.due j due' hdu

end Inv

/-! ## The loop of a set -/

theorem kiInsertTimerTree_taken {s : TimerQueue K C D} {c : C} {k : K}
    (hsr : Ordered TimerEntry.key (s.timerTree c)) {entry : TimerEntry K}
    (he : entry ∈ s.timerTree c) (hy : entry.key = s.keyOf (s.timer k).expiryTick) :
    s.kiInsertTimerTree c k = (s.setTimer k { s.timer k with scheduler := c }, false) := by
  have hnn : insertItem TimerEntry.key (s.timerTree c) ⟨s.keyOf (s.timer k).expiryTick, k⟩ = none := by
    cases hin : insertItem TimerEntry.key (s.timerTree c)
        ⟨s.keyOf (s.timer k).expiryTick, k⟩ with
    | none => rfl
    | some cur =>
      obtain ⟨l, r, hp, -, hl, hr⟩ := insertItem_eq_some hin hsr
      rw [hp, mem_append] at he
      rcases he with he | he
      · exact absurd hy (hl entry he).ne
      · exact absurd hy (hr entry he).ne'
  simp only [kiInsertTimerTree, setTimer, update_self, keyOf] at hnn ⊢
  rw [hnn]

/-- An insertion under a new key succeeds. -/
theorem kiInsertTimerTree_free {s : TimerQueue K C D} {c : C} {k : K}
    (hfr : ∀ entry ∈ s.timerTree c, entry.key ≠ s.keyOf (s.timer k).expiryTick) :
    ∃ cur, insertItem TimerEntry.key (s.timerTree c) ⟨s.keyOf (s.timer k).expiryTick, k⟩ = some cur ∧
      s.kiInsertTimerTree c k
        = ({ s.setTimer k { s.timer k with scheduler := c } with
            timerTree := update s.timerTree c cur.toTree }, true) := by
  cases hin : insertItem TimerEntry.key (s.timerTree c)
      ⟨s.keyOf (s.timer k).expiryTick, k⟩ with
  | none =>
    obtain ⟨entry, he, hy⟩ := insertItem_eq_none hin
    exact absurd hy (hfr entry he)
  | some cur =>
    refine ⟨cur, rfl, ?_⟩
    simp only [kiInsertTimerTree, setTimer, update_self, keyOf] at hin ⊢
    rw [hin]

/-- The loop moves the timer on to the first free expiry tick. -/
theorem insertLoop_spec {c : C} {k : K} {e : Nat} (he : e < 2 ^ 64) (n : Nat) :
    ∀ (fuel : Nat) (s : TimerQueue K C D), n < fuel → (s.timer k).expiryTick + n = e →
      Ordered TimerEntry.key (s.timerTree c) →
      (∀ entry ∈ s.timerTree c, entry.key ≠ s.keyOf e) →
      (∀ d, (s.timer k).expiryTick ≤ d → d < e → ∃ entry ∈ s.timerTree c, entry.key = s.keyOf d) →
      ∃ cur, insertItem TimerEntry.key (s.timerTree c) ⟨s.keyOf e, k⟩ = some cur ∧ insertLoop c k fuel s
          = some { s.setTimer k { s.timer k with scheduler := c, expiryTick := e } with
              timerTree := update s.timerTree c cur.toTree } := by
  -- By induction on how far the timer has to go.
  induction n with
  | zero =>
    intro fuel s hfl hp hsr hfr _
    obtain ⟨fuel, rfl⟩ := Nat.exists_eq_add_one_of_ne_zero (Nat.ne_of_gt hfl)
    rw [Nat.add_zero] at hp
    subst hp
    obtain ⟨cur, hin, htree⟩ := kiInsertTimerTree_free hfr
    exact ⟨cur, hin, by rw [insertLoop, htree]⟩
  | succ n ih =>
    intro fuel s hfl hp hsr hfr hfs
    obtain ⟨fuel, rfl⟩ := Nat.exists_eq_add_one_of_ne_zero (Nat.ne_of_gt (Nat.zero_lt_of_lt hfl))
    obtain ⟨entry, hen, hy⟩ := hfs _ (Nat.le_refl _) (by omega)
    have hnext : ((s.timer k).expiryTick + 1) % 2 ^ 64 = (s.timer k).expiryTick + 1 :=
      Nat.mod_eq_of_lt (by omega)
    obtain ⟨cur, hin, hlp⟩ := ih fuel
      (s.setTimer k { s.timer k with
        scheduler := c, expiryTick := (s.timer k).expiryTick + 1 })
      (by omega) (by simp only [setTimer, update_self]; omega) hsr hfr
      (fun d hd hde => hfs d (by
        simp only [setTimer, update_self] at hd
        omega) hde)
    refine ⟨cur, hin, ?_⟩
    rw [insertLoop, kiInsertTimerTree_taken hsr hen hy]
    simp only [setTimer, update_self, update_idem, hnext] at hlp ⊢
    exact hlp

/-- **`KiSetTimer` returns**, and the timer is in the queue. -/
theorem Inv.set {s : TimerQueue K C D} (h : Inv s) {c : C} {k : K} {dueTimeMs now e : Nat}
    (hsl : s.Slot c k (now + s.ticks dueTimeMs) e) (dpc : Option D) :
    ∃ r, s.kiSetTimer c k dueTimeMs dpc now = some r ∧ Inv r.1 := by
  have hlf := h.removeIfEnqueued k
  have hlg : (if (s.timer k).isEnqueued then s.kiRemoveTimerTree k else s).log = s.log := by
    split <;> rfl
  have hc : (if (s.timer k).isEnqueued then s.kiRemoveTimerTree k else s).ticks dueTimeMs
      = s.ticks dueTimeMs := by
    split <;> rfl
  generalize hs₀ : (if (s.timer k).isEnqueued then s.kiRemoveTimerTree k else s) = s₀
    at hlf hlg hc
  have hdu : (now + s.ticks dueTimeMs) % 2 ^ 64 = now + s.ticks dueTimeMs :=
    Nat.mod_eq_of_lt (Nat.lt_of_le_of_lt hsl.due_le hsl.lt)
  have hlf₁ := hlf.setTimer { s₀.timer k with expiryTick := now + s.ticks dueTimeMs }
  generalize hs₁ : s₀.setTimer k { s₀.timer k with expiryTick := now + s.ticks dueTimeMs } = s₁
    at hlf₁
  have hp : (s₁.timer k).expiryTick = now + s.ticks dueTimeMs := by
    rw [← hs₁]
    simp only [setTimer, update_self]
  have hme : ∀ entry, entry ∈ s₁.timerTree c ↔ entry ∈ s.timerTree c ∧ entry.timer ≠ k := by
    intro entry
    rw [hlf₁.timerTree c, mem_filter]
    simp
  have hy : ∀ x, s₁.keyOf x = s.keyOf x := fun x => by rw [keyOf, hlf₁.width, keyOf]
  have hsr : Ordered TimerEntry.key (s₁.timerTree c) := by
    rw [hlf₁.timerTree c]
    exact ((h.sorted c).imp fun ha => ha.1).sublist filter_sublist
  have hle := hsl.due_le
  have hlt := hsl.lt
  obtain ⟨cursor, hin, hlp⟩ := insertLoop_spec (c := c) (k := k) hsl.lt
    (e - (now + s.ticks dueTimeMs)) (2 ^ 64) s₁ (by omega) (by omega) hsr
    (fun entry he => by
      rw [hy]
      exact hsl.free entry ((hme entry).1 he).1 ((hme entry).1 he).2)
    (fun d hd hde => by
      obtain ⟨entry, he, hne, hke⟩ := hsl.first d (hp ▸ hd) hde
      exact ⟨entry, (hme entry).2 ⟨he, hne⟩, by rw [hy, hke]⟩)
  have hst : s.kiSetTimer c k dueTimeMs dpc now = some
      ({ ({ s₁.setTimer k { s₁.timer k with scheduler := c, expiryTick := e } with
            timerTree := update s₁.timerTree c cursor.toTree } : TimerQueue K C D).setTimer k
          { s₁.timer k with scheduler := c, expiryTick := e, isEnqueued := true, dpc := dpc } with
        log := .set k (now + s.ticks dueTimeMs) :: s₁.log }, (s.timer k).isEnqueued) := by
    simp only [kiSetTimer, hs₀, hc, hdu, hs₁, hlp, map_some]
    simp only [setTimer, update_self]
  refine ⟨_, hst, ?_⟩
  rw [hy] at hin
  refine h.enter hlf₁ hsl hin rfl ?_ ?_ ?_ ?_ rfl ?_
  · intro j hj
    simp only [setTimer, update_of_ne hj]
  · simp only [setTimer, update_self]
  · simp only [setTimer, update_self]
  · simp only [setTimer, update_self]
  · have hlg₁ : s₁.log = s.log := by
      rw [← hs₁]
      exact hlg
    rw [hlg₁]

/-! ## The loop of a dispatch -/

theorem length_kiCancelTimer (s : TimerQueue K C D) (k : K) (c : C) :
    ((s.kiCancelTimer k).1.timerTree c).length ≤ (s.timerTree c).length := by
  simp only [kiCancelTimer, setTimer]
  split
  · by_cases hc : c = (s.timer k).scheduler
    · subst hc
      simp only [kiRemoveTimerTree, update_self]
      exact length_filter_le ..
    · simp only [kiRemoveTimerTree, update_of_ne hc]
      exact Nat.le_refl _
  · exact Nat.le_refl _

theorem length_cancelAll (woken : List K) (s : TimerQueue K C D) (c : C) :
    ((s.cancelAll woken).timerTree c).length ≤ (s.timerTree c).length := by
  induction woken generalizing s with
  | nil => exact Nat.le_refl _
  | cons k woken ih => exact (ih _).trans (s.length_kiCancelTimer k c)

theorem length_expire {s : TimerQueue K C D} (h : Inv s) {c : C} {entry : TimerEntry K}
    {rest : List (TimerEntry K)} (htree : s.timerTree c = entry :: rest) (now : Nat)
    (woken : List K) :
    ((s.expire entry.timer now woken).timerTree c).length < (s.timerTree c).length := by
  have hc : (s.timer entry.timer).scheduler = c :=
    ((h.enqueued entry.timer c).1 ⟨entry, htree ▸ mem_cons_self, rfl⟩).2
  refine Nat.lt_of_le_of_lt (length_cancelAll woken _ c) ?_
  simp only [kiRemoveTimerTree, setTimer, update_self, hc]
  rw [htree, filter_cons_of_neg (by simp)]
  exact Nat.lt_succ_of_le (length_filter_le ..)

theorem Inv.dispatch {c : C} {clock : Nat → Nat} {woken : Nat → List K}
    (hc : ∀ i, clock i + 100 < 2 ^ 64) (fuel : Nat) :
    ∀ (i : Nat) (s : TimerQueue K C D), Inv s → (s.timerTree c).length < fuel →
      Inv (s.kiDispatchTimerObjects c clock woken fuel i).1 ∧
        ∀ entry ∈ (s.kiDispatchTimerObjects c clock woken fuel i).1.timerTree c,
          clock (s.kiDispatchTimerObjects c clock woken fuel i).2
            < ((s.kiDispatchTimerObjects c clock woken fuel i).1.timer entry.timer).expiryTick := by
  induction fuel with
  | zero =>
    intro i s _ hlt
    exact absurd hlt (Nat.not_lt_zero _)
  | succ fuel ih =>
    intro i s h hlt
    unfold kiDispatchTimerObjects
    cases htree : s.timerTree c with
    | nil =>
      refine ⟨h, ?_⟩
      rw [htree]
      exact nofun
    | cons entry rest =>
      dsimp only
      rw [Nat.mod_eq_of_lt (hc i)]
      by_cases hst : clock i + 100 ≤ (s.timer entry.timer).expiryTick
      · rw [if_pos hst]
        refine ⟨h, fun other hother => ?_⟩
        have hsr := h.sorted c
        rw [htree] at hother hsr
        show clock i < (s.timer other.timer).expiryTick
        rcases mem_cons.1 hother with rfl | hother
        · omega
        · have := ((pairwise_cons.1 hsr).1 other hother).2
          omega
      · rw [if_neg hst]
        have he : entry ∈ s.timerTree c := htree ▸ mem_cons_self
        have hh := length_expire h htree (clock i) (woken i)
        exact ih (i + 1) _ (h.expire he (by omega) (woken i)) (by omega)

/-! ## Runs -/

omit [DecidableEq C] in
/-- The same state but for the notes of the last step. -/
theorem Inv.note {s s' : TimerQueue K C D} (h : Inv s) (htm : s'.timer = s.timer)
    (htree : s'.timerTree = s.timerTree) (hlg : s'.log = s.log) (hw : s'.width = s.width) :
    Inv s' := by
  obtain ⟨he, hy, hsr, hon, hp, hdu⟩ := h
  refine ⟨?_, ?_, ?_, ?_, ?_, ?_⟩
  · rw [htm, htree]
    exact he
  · rw [htm, htree]
    intro c entry hen
    rw [keyOf, hw]
    exact hy c entry hen
  · rw [htm, htree]
    exact hsr
  · rw [hlg]
    exact hon
  · rw [hlg, htm]
    exact hp
  · rw [hlg, htm]
    exact hdu

/-- What the notes of the last step say. -/
structure Noted (s : TimerQueue K C D) : Prop where
  expired : ∀ c now, s.dispatched = some (c, now) →
    ∀ entry ∈ s.timerTree c, now < (s.timer entry.timer).expiryTick
  difference : ∀ expiry difference, s.asked = some (expiry, difference) → difference ≤ expiry

theorem step_inv {s s' : TimerQueue K C D} (h : Inv s) {a : Action K C D} (hlg : s.Legal a)
    (hc : s.Calm a) (hs : s.step a = some s') : Inv s' ∧ Noted s' := by
  cases a with
  | set c k dtm dpc now =>
    obtain ⟨e, hsl⟩ := hc
    obtain ⟨r, hr, hin⟩ := h.set hsl dpc
    simp only [step, hr, map_some] at hs
    cases hs
    exact ⟨hin.note rfl rfl rfl rfl, nofun, nofun⟩
  | cancel k =>
    cases hs
    exact ⟨(h.cancel k).note rfl rfl rfl rfl, nofun, nofun⟩
  | dispatch c clock woken =>
    have hq : Inv (s.kiDispatchTimerQueue c clock woken).1 ∧
        ∀ entry ∈ (s.kiDispatchTimerQueue c clock woken).1.timerTree c,
          clock (s.kiDispatchTimerQueue c clock woken).2
            < ((s.kiDispatchTimerQueue c clock woken).1.timer entry.timer).expiryTick := by
      unfold kiDispatchTimerQueue
      split
      · exact Inv.dispatch hc _ 1 s h (Nat.lt_succ_self _)
      · next hfr =>
          refine ⟨h, fun entry he => ?_⟩
          rw [Nat.mod_eq_of_lt (hc 0)] at hfr
          have hsr := h.sorted c
          cases htree : s.timerTree c with
          | nil =>
            rw [htree] at he
            cases he
          | cons first rest =>
            simp only [kiGetNextTimerExpiryTick, htree] at hfr he hsr
            rcases mem_cons.1 he with rfl | he
            · simp only
              omega
            · have := ((pairwise_cons.1 hsr).1 entry he).2
              simp only at this ⊢
              omega
    obtain ⟨hin, hp⟩ := hq
    cases hs
    refine ⟨hin.note rfl rfl rfl rfl, ?_, nofun⟩
    intro d now hd
    cases hd
    exact hp
  | ask c now =>
    cases hs
    refine ⟨h.note rfl rfl rfl rfl, nofun, ?_⟩
    intro exp dif ha
    obtain ⟨d, hd, heq⟩ := map_eq_some_iff.1 ha
    cases heq
    simp only [expiryDifference] at hd
    split at hd
    · cases hd
    · next hne =>
        cases hd
        cases htree : s.timerTree c with
        | nil => simp [kiGetNextTimerExpiryTick, htree] at hne
        | cons first rest =>
          have hw := hc first rest htree
          simp only [kiGetNextTimerExpiryTick, htree]
          omega

/-- **The timer queue keeps its promises** in every run without a tick count, an expiry tick or a
difference that is cut short. -/
theorem good_of_calm (width : KeyWidth) (tickFrequency : Nat) (timer : K → KTimer C D)
    {s : TimerQueue K C D}
    (h : Reaches step (fun s a => s.Legal a ∧ s.Calm a) (start width tickFrequency timer) s) :
    Good s := by
  have hin : Inv s ∧ Noted s := by
    refine h.invariant (I := fun s => Inv s ∧ Noted s) ?_ ?_
    · exact ⟨Inv.start width tickFrequency timer, nofun, nofun⟩
    · intro s a s' hs ha hst
      exact step_inv hs.1 ha.1 ha.2 hst
  obtain ⟨hin, hnt⟩ := hin
  refine ⟨hin.enqueued, ?_, ?_, hin.once, hin.kept, hnt.expired, hnt.difference⟩
  · rintro c k dueTimeMs dpc now ⟨e, hsl⟩
    obtain ⟨r, hr, -⟩ := hin.set hsl dpc
    rw [hr]
    rfl
  · intro c entry rest htree other hother
    have hsr := hin.sorted c
    rw [htree] at hsr
    exact ((pairwise_cons.1 hsr).1 other hother).2

/-- One timer, on one scheduler, that was never set. -/
def oneTimer (width : KeyWidth) : TimerQueue Unit Unit Unit :=
  start width 1000 fun _ => ⟨0, false, (), none, false⟩

/-- The timer is set and signaled, with keys of 32 bits. -/
theorem good_of_calm_dispatch :
    ∃ s, Reaches step (fun s a => s.Legal a ∧ s.Calm a) (oneTimer .narrow) s ∧
      (s.timer ()).signaled ∧ s.log = [.signaled () 10, .set () 8] ∧ Good s := by
  have hsl : (oneTimer .narrow).Slot () () (5 + (oneTimer .narrow).ticks 3) 8 :=
    ⟨by decide, by decide, nofun, fun d _ _ => by
      have hc : 5 + (oneTimer .narrow).ticks 3 = 8 := by decide
      omega, nofun⟩
  have hst : Reaches step (fun s a => s.Legal a ∧ s.Calm a) (oneTimer .narrow) _ :=
    .tail (a := .set () () 3 none 5) .refl ⟨⟨by decide, by decide, by decide⟩, 8, hsl⟩ rfl
  have hds := Reaches.tail (a := Action.dispatch () (fun _ => 10) fun _ => []) hst
    ⟨⟨by decide, fun _ => Nat.le_refl _, fun _ => (by decide : 10 < 2 ^ 64)⟩,
      fun _ => (by decide : 10 + 100 < 2 ^ 64)⟩ rfl
  exact ⟨_, hds, by decide, rfl, good_of_calm _ _ _ hds⟩

/-- The interval to a timer that has expired one tick ago is a wrapped difference. -/
theorem not_good : ¬ ∀ s, Reaches step (fun s a => s.Legal a) (oneTimer .wide) s → Good s := by
  intro h
  have hst : Reaches step (fun s a => s.Legal a) (oneTimer .wide) _ :=
    .tail (a := .set () () 0 none 5) .refl ⟨by decide, by decide, by decide⟩ rfl
  have ha := Reaches.tail (a := Action.ask () 6) hst ⟨by decide, by decide⟩ rfl
  exact absurd ((h _ ha).difference 5 (2 ^ 64 - 1) (by decide)) (by decide)

end TimerQueue

end Boron.Ke
