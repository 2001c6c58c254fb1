import Boron.Cc.ViewSystem

/-! # The turns of the calls, their mutexes and their address ranges

`turn_cases` says once what a turn can do. Two invariants about what the calls hold follow: the
mutexes are held as often as the calls say (`MutexOk`), and the address ranges of the views and of
the calls are apart (`SpaceOk`). -/

namespace Boron.Cc

open Function List Option

namespace Views

variable {F T : Type} [DecidableEq F] [DecidableEq T]

/-! ## What a call holds -/

/-- How often a call holds the mutex of a file. -/
def holds : Call F → F → Nat
  | .idle, _ | .entering _, _ => 0
  | .removing c _ v, f => (if f = c.file then 1 else 0) + if f = v.file then 1 else 0
  | .caching c _, f => (if f = c.file then 1 else 0) + if f = c.file then 1 else 0
  | .looping c, f | .purging c, f | .unmapping c _, f | .waiting c _ _, f | .removed c _ _, f
  | .freeing c _, f | .allocating c, f | .inserting c _, f | .mapping c _, f | .adding c _, f
  | .copying c _, f | .failing c, f => if f = c.file then 1 else 0

/-- The view a call maps or copies through, and its transfer. -/
def uses : Call F → Option (Transfer F × Vad F)
  | .mapping c v | .caching c v | .adding c v | .copying c v => some (c, v)
  | _ => none

/-- The address range that a call got from the pool or is about to give back. -/
def space : Call F → Option Nat
  | .inserting _ startAddress => some startAddress
  | .waiting _ viewPointer _ | .removing _ viewPointer _ | .removed _ viewPointer _
  | .freeing _ viewPointer => some viewPointer
  | _ => none

/-- The call goes on with what it holds, except that it may be done with its view. -/
structure Moves (call call' : Call F) : Prop where
  holds : holds call' = holds call
  uses : uses call' = none ∨ uses call' = uses call
  unmaps : unmaps call' = unmaps call
  space : space call' = space call

/-- The call goes on without its address range. -/
structure Drops (call call' : Call F) : Prop where
  holds : holds call' = holds call
  uses : uses call' = none
  unmaps : unmaps call = none ∧ unmaps call' = none
  space : space call' = none

/-- Everything that a turn of a thread can do. -/
inductive Turn (s : Views F T) (t : T) : Views F T → Prop
  | move (call : Call F) (lru : List (Vad F)) (h : Moves (s.thread t) call) :
      Turn s t { s.goto t call with viewCacheLru := lru }
  | find (c : Transfer F) (v : Vad F) (h : s.thread t = .looping c) (hsize : c.size ≠ 0)
      (hv : s.lookUpView c = some v) : Turn s t (s.goto t (.copying c v))
  | enter (c : Transfer F) (m : Mutex T) (h : s.thread t = .entering c)
      (hm : (s.viewCacheMutex c.file).acquire t = some m) :
      Turn s t { s.goto t (.looping c) with
        viewCacheMutex := update s.viewCacheMutex c.file m }
  | leave (c : Transfer F) (m : Mutex T) (h : s.thread t = .looping c ∨ s.thread t = .failing c)
      (hm : (s.viewCacheMutex c.file).release t = some m) :
      Turn s t { s.goto t .idle with
        viewCacheMutex := update s.viewCacheMutex c.file m }
  | take (c : Transfer F) (viewPointer : Nat) (cursor : Cursor (Vad F))
      (h : s.thread t = .unmapping c viewPointer)
      (hcursor : lookUpApproximate Vad.startVa s.vadTree viewPointer = some cursor) :
      Turn s t { s.goto t (.waiting c viewPointer cursor.entry) with vadTree := cursor.remove }
  | lock (c : Transfer F) (viewPointer : Nat) (v : Vad F) (m : Mutex T)
      (h : s.thread t = .waiting c viewPointer v)
      (hm : (s.viewCacheMutex v.file).acquire t = some m) :
      Turn s t { s.goto t (.removing c viewPointer v) with
        viewCacheMutex := update s.viewCacheMutex v.file m }
  | uncache (c : Transfer F) (viewPointer : Nat) (v : Vad F) (m : Mutex T)
      (h : s.thread t = .removing c viewPointer v)
      (hm : (s.viewCacheMutex v.file).release t = some m) :
      Turn s t { (s.uncache v).goto t (.removed c viewPointer v) with
        viewCacheMutex := update s.viewCacheMutex v.file m }
  | allocate (c : Transfer F) (startAddress : Nat) (h : s.thread t = .allocating c)
      (hvacant : s.Vacant startAddress) :
      Turn s t { s.goto t (.inserting c startAddress) with
        poolSpace := s.poolSpace ++ [startAddress] }
  | free (call : Call F) (startAddress : Nat) (h : space (s.thread t) = some startAddress)
      (hdrops : Drops (s.thread t) call) :
      Turn s t { s.goto t call with poolSpace := s.poolSpace.filter (· ≠ startAddress) }
  | insert (c : Transfer F) (startAddress : Nat) (cursor : Cursor (Vad F))
      (h : s.thread t = .inserting c startAddress)
      (hcursor : insertItem Vad.startVa s.vadTree (c.newVad s.vadCount startAddress)
        = some cursor) :
      Turn s t { s.goto t (.mapping c (c.newVad s.vadCount startAddress)) with
        vadTree := cursor.toTree, vadCount := s.vadCount + 1 }
  | relock (c : Transfer F) (v : Vad F) (m : Mutex T) (h : s.thread t = .mapping c v)
      (hm : (s.viewCacheMutex c.file).acquire t = some m) :
      Turn s t { s.goto t (.caching c v) with
        viewCacheMutex := update s.viewCacheMutex c.file m }
  | cache (c : Transfer F) (v : Vad F) (m : Mutex T) (h : s.thread t = .caching c v)
      (hm : (s.viewCacheMutex c.file).release t = some m) :
      Turn s t { (s.cache v).goto t (.adding c v) with
        viewCacheMutex := update s.viewCacheMutex c.file m }

/-- A step that changes no shared state but the list. -/
theorem Turn.goto {s : Views F T} {t : T} {call : Call F} (h : Moves (s.thread t) call) :
    Turn s t (s.goto t call) :=
  .move call s.viewCacheLru h

theorem mmFreePoolBig_turn {s s' : Views F T} {t : T} {call : Call F} {startAddress : Nat}
    (h : space (s.thread t) = some startAddress) (hdrops : Drops (s.thread t) call)
    (hs : (s.mmFreePoolBig startAddress).map (·.goto t call) = some s') : Turn s t s' := by
  obtain ⟨s₁, hfr, rfl⟩ := map_eq_some_iff.1 hs
  unfold mmFreePoolBig at hfr
  split at hfr
  · cases hfr
    exact .free call startAddress h hdrops
  · cases hfr

theorem turn_cases {s s' : Views F T} {t : T} {ans : Answers}
    (hs : s.turn t ans = some s') : Turn s t s' := by
  cases hc : s.thread t with
  | idle =>
    simp only [turn, hc] at hs
    cases hs
  | entering c =>
    simp only [turn, hc] at hs
    obtain ⟨m, hm, rfl⟩ := map_eq_some_iff.1 hs
    exact .enter c m hc hm
  | looping c =>
    simp only [turn, hc] at hs
    split at hs
    · obtain ⟨m, hm, rfl⟩ := map_eq_some_iff.1 hs
      exact .leave c m (.inl hc) hm
    · next hsize =>
        split at hs
        · next v hv =>
            cases hs
            exact .find c v hc hsize hv
        · cases hs
          refine .goto (hc ▸ ?_)
          split <;> exact ⟨rfl, .inl rfl, rfl, rfl⟩
  | purging c =>
    simp only [turn, hc] at hs
    split at hs
    · obtain ⟨v, -, rfl⟩ := map_eq_some_iff.1 hs
      exact .goto (hc ▸ ⟨rfl, .inl rfl, rfl, rfl⟩)
    · cases hs
      exact .goto (hc ▸ ⟨rfl, .inl rfl, rfl, rfl⟩)
  | unmapping c vp =>
    simp only [turn, hc] at hs
    obtain ⟨cur, hcursor, rfl⟩ := map_eq_some_iff.1 hs
    exact .take c vp cur hc hcursor
  | waiting c vp v =>
    simp only [turn, hc] at hs
    obtain ⟨m, hm, rfl⟩ := map_eq_some_iff.1 hs
    exact .lock c vp v m hc hm
  | removing c vp v =>
    simp only [turn, hc] at hs
    obtain ⟨m, hm, rfl⟩ := map_eq_some_iff.1 hs
    exact .uncache c vp v m hc hm
  | removed c vp v =>
    simp only [turn, hc] at hs
    cases hs
    exact .move (.freeing c vp) _ (hc ▸ ⟨rfl, .inl rfl, rfl, rfl⟩)
  | freeing c vp =>
    simp only [turn, hc] at hs
    exact mmFreePoolBig_turn (hc ▸ rfl) (hc ▸ ⟨rfl, rfl, ⟨rfl, rfl⟩, rfl⟩) hs
  | allocating c =>
    simp only [turn, hc] at hs
    split at hs
    · next startAddress _ =>
        obtain ⟨s₁, ha, rfl⟩ := map_eq_some_iff.1 hs
        unfold mmAllocatePoolBig at ha
        split at ha
        · next hvacant =>
            cases ha
            exact .allocate c startAddress hc hvacant
        · cases ha
    · cases hs
      exact .goto (hc ▸ ⟨rfl, .inl rfl, rfl, rfl⟩)
  | inserting c startAddress =>
    simp only [turn, hc, miInitializeAndInsertVad] at hs
    split at hs
    · split at hs
      · next cur hcursor =>
          cases hs
          exact .insert c startAddress cur hc hcursor
      · exact mmFreePoolBig_turn (hc ▸ rfl) (hc ▸ ⟨rfl, rfl, ⟨rfl, rfl⟩, rfl⟩) hs
    · exact mmFreePoolBig_turn (hc ▸ rfl) (hc ▸ ⟨rfl, rfl, ⟨rfl, rfl⟩, rfl⟩) hs
  | mapping c v =>
    simp only [turn, hc] at hs
    obtain ⟨m, hm, rfl⟩ := map_eq_some_iff.1 hs
    exact .relock c v m hc hm
  | caching c v =>
    simp only [turn, hc] at hs
    obtain ⟨m, hm, rfl⟩ := map_eq_some_iff.1 hs
    exact .cache c v m hc hm
  | adding c v =>
    simp only [turn, hc] at hs
    cases hs
    exact .move (.copying c v) _ (hc ▸ ⟨rfl, .inr rfl, rfl, rfl⟩)
  | copying c v =>
    simp only [turn, hc] at hs
    cases hs
    exact .goto (hc ▸ ⟨rfl, .inl rfl, rfl, rfl⟩)
  | failing c =>
    simp only [turn, hc] at hs
    obtain ⟨m, hm, rfl⟩ := map_eq_some_iff.1 hs
    exact .leave c m (.inr hc) hm

/-! ## The mutexes -/

/-- Every mutex is held as often as the calls hold it. -/
def MutexOk (s : Views F T) : Prop :=
  ∀ t f, (s.viewCacheMutex f).depth t = holds (s.thread t) f

namespace MutexOk

variable {s s' : Views F T} {t : T} {f : F} {m : Mutex T} {call : Call F}

theorem goto (h : MutexOk s) (hc : holds call = holds (s.thread t)) : MutexOk (s.goto t call) := by
  intro u g
  by_cases hu : u = t
  · subst hu
    simp only [Views.goto, update_self, hc]
    exact h u g
  · simp only [Views.goto, update_of_ne hu]
    exact h u g

theorem acquire (h : MutexOk s) (hm : (s.viewCacheMutex f).acquire t = some m)
    (hc : ∀ g, holds call g = holds (s.thread t) g + if g = f then 1 else 0) :
    MutexOk { s.goto t call with viewCacheMutex := update s.viewCacheMutex f m } := by
  have hp := Mutex.depth_acquire hm
  intro u g
  have hold := h u g
  by_cases hu : u = t <;> by_cases hg : g = f
  · subst hu hg
    simp [Views.goto, hp, hc, hold]
  · subst hu
    simp [Views.goto, hc, hold, hg]
  · subst hg
    simp [Views.goto, hp, hold, hu]
  · simp [Views.goto, hold, hu, hg]

theorem release (h : MutexOk s) (hm : (s.viewCacheMutex f).release t = some m)
    (hc : ∀ g, holds (s.thread t) g = holds call g + if g = f then 1 else 0) :
    MutexOk { s.goto t call with viewCacheMutex := update s.viewCacheMutex f m } := by
  have hp := Mutex.depth_release hm
  intro u g
  have hold := h u g
  by_cases hu : u = t <;> by_cases hg : g = f
  · subst hu hg
    rw [hc, hp u] at hold
    simpa [Views.goto] using hold
  · subst hu
    rw [hc, if_neg hg] at hold
    simpa [Views.goto, hg] using hold
  · subst hg
    rw [hp u, if_neg hu] at hold
    simpa [Views.goto, hu] using hold
  · simpa [Views.goto, hu, hg] using hold

theorem owner (h : MutexOk s) (hc : holds (s.thread t) f ≠ 0) : (s.viewCacheMutex f).owner = some t :=
  Mutex.owner_eq_some (h t f ▸ hc)

theorem turn (h : MutexOk s) (hs : Turn s t s') : MutexOk s' := by
  cases hs with
  | move call lru hmv => exact h.goto hmv.holds
  | find c v hc hsize hv => exact h.goto (hc ▸ rfl)
  | enter c m hc hm => exact h.acquire hm fun g => by simp [hc, holds]
  | leave c m hc hm =>
    refine h.release hm fun g => ?_
    rcases hc with hc | hc <;> simp [hc, holds]
  | take c vp cur hc hcursor =>
    have hholds : holds (.waiting c vp cur.entry) = holds (s.thread t) := hc ▸ rfl
    exact h.goto hholds
  | lock c vp v m hc hm => exact h.acquire hm fun g => by simp [hc, holds]
  | uncache c vp v m hc hm =>
    exact MutexOk.release (s := s.uncache v) h hm fun g => by
      simp [Views.uncache, hc, holds]
  | allocate c startAddress hc hvacant =>
    have hholds : holds (.inserting c startAddress) = holds (s.thread t) := hc ▸ rfl
    exact h.goto hholds
  | free call startAddress hp hdrops => exact h.goto hdrops.holds
  | insert c startAddress cur hc hcursor =>
    have hholds : holds (.mapping c (c.newVad s.vadCount startAddress)) = holds (s.thread t) :=
      hc ▸ rfl
    exact h.goto hholds
  | relock c v m hc hm => exact h.acquire hm fun g => by simp [hc, holds]
  | cache c v m hc hm =>
    exact MutexOk.release (s := s.cache v) h hm fun g => by simp [Views.cache, hc, holds]

end MutexOk

/-! ## The address ranges -/

/-- The ranges of the views and of the calls are handed out, and they are apart. -/
structure SpaceOk (s : Views F T) : Prop where
  apart : s.vadTree.Pairwise fun v w => v.startVa + viewCacheSize ≤ w.startVa
  reserved : ∀ v ∈ s.vadTree, v.startVa ∈ s.poolSpace
  disjoint : ∀ a ∈ s.poolSpace, ∀ b ∈ s.poolSpace, a ≠ b →
    a + viewCacheSize ≤ b ∨ b + viewCacheSize ≤ a
  calls : ∀ t a, space (s.thread t) = some a → a ∈ s.poolSpace ∧ ∀ v ∈ s.vadTree, v.startVa ≠ a
  exclusive : ∀ t u a, space (s.thread t) = some a → space (s.thread u) = some a → t = u

namespace SpaceOk

variable {s s' : Views F T} {t : T} {call : Call F}

omit [DecidableEq F] [DecidableEq T] in
theorem ordered (h : SpaceOk s) : Ordered Vad.startVa s.vadTree :=
  h.apart.imp fun hw => by
    have : 0 < viewCacheSize := by decide
    omega

section

omit [DecidableEq F]

/-- The ranges of the calls when one of them changes. -/
theorem change (h : SpaceOk s) (hh : s'.thread = update s.thread t call)
    (hp : s'.vadTree.Pairwise fun v w => v.startVa + viewCacheSize ≤ w.startVa)
    (hrs : ∀ v ∈ s'.vadTree, v.startVa ∈ s'.poolSpace)
    (hds : ∀ a ∈ s'.poolSpace, ∀ b ∈ s'.poolSpace, a ≠ b →
      a + viewCacheSize ≤ b ∨ b + viewCacheSize ≤ a)
    (hc : ∀ a, space call = some a → (a ∈ s'.poolSpace ∧ ∀ v ∈ s'.vadTree, v.startVa ≠ a) ∧
      ∀ u, u ≠ t → space (s.thread u) ≠ some a)
    (hother : ∀ u, u ≠ t → ∀ a, space (s.thread u) = some a →
      a ∈ s'.poolSpace ∧ ∀ v ∈ s'.vadTree, v.startVa ≠ a) : SpaceOk s' := by
  refine ⟨hp, hrs, hds, ?_, ?_⟩
  · intro u a ha
    rw [hh] at ha
    by_cases hu : u = t
    · subst hu
      rw [update_self] at ha
      exact (hc a ha).1
    · rw [update_of_ne hu] at ha
      exact hother u hu a ha
  · intro u w a hu hw
    rw [hh] at hu hw
    by_cases hut : u = t <;> by_cases hwt : w = t
    · rw [hut, hwt]
    · rw [hut, update_self] at hu
      rw [update_of_ne hwt] at hw
      exact absurd hw ((hc a hu).2 w hwt)
    · rw [update_of_ne hut] at hu
      rw [hwt, update_self] at hw
      exact absurd hu ((hc a hw).2 u hut)
    · rw [update_of_ne hut] at hu
      rw [update_of_ne hwt] at hw
      exact h.exclusive u w a hu hw

/-- A step that leaves the ranges alone. -/
theorem same (h : SpaceOk s) (htree : s'.vadTree = s.vadTree) (hp : s'.poolSpace = s.poolSpace)
    (hh : s'.thread = update s.thread t call)
    (hc : space call = space (s.thread t)) : SpaceOk s' := by
  refine h.change hh ?_ ?_ ?_ ?_ ?_
  · exact htree ▸ h.apart
  · exact htree ▸ hp ▸ h.reserved
  · exact hp ▸ h.disjoint
  · intro a ha
    rw [hc] at ha
    rw [htree, hp]
    exact ⟨h.calls t a ha, fun u hu hua => hu (h.exclusive u t a hua ha)⟩
  · intro u _ a ha
    rw [htree, hp]
    exact h.calls u a ha

variable {c : Transfer F}

theorem take (h : SpaceOk s) {viewPointer : Nat} {cursor : Cursor (Vad F)}
    (hcursor : lookUpApproximate Vad.startVa s.vadTree viewPointer = some cursor)
    (hp : cursor.entry.startVa = viewPointer) :
    SpaceOk { s.goto t (.waiting c viewPointer cursor.entry) with vadTree := cursor.remove } := by
  obtain ⟨htree, -⟩ := lookUpApproximate_eq_some hcursor
  have hme : ∀ v ∈ cursor.remove, v ∈ s.vadTree := fun v hv =>
    htree ▸ cursor.toTree_perm.mem_iff.2 (mem_cons_of_mem _ hv)
  have he : cursor.entry ∈ s.vadTree :=
    htree ▸ cursor.toTree_perm.mem_iff.2 mem_cons_self
  have hap := h.apart
  rw [← htree, Cursor.toTree, pairwise_append, pairwise_cons] at hap
  obtain ⟨hlf, ⟨hnext, hrg⟩, hc⟩ := hap
  have hpos : 0 < viewCacheSize := by decide
  have hgn : ∀ v ∈ cursor.remove, v.startVa ≠ viewPointer := by
    intro v hv
    rcases mem_append.1 hv with hv | hv
    · have := hc v hv cursor.entry mem_cons_self
      omega
    · have := hnext v hv
      omega
  refine h.change rfl ?_ (fun v hv => h.reserved v (hme v hv)) h.disjoint ?_ ?_
  · exact pairwise_append.2 ⟨hlf, hrg, fun v hv w hw => hc v hv w (mem_cons_of_mem _ hw)⟩
  · intro a ha
    obtain rfl : viewPointer = a := some.inj ha
    exact ⟨⟨hp ▸ h.reserved _ he, hgn⟩, fun u _ hu => (h.calls u _ hu).2 cursor.entry he hp⟩
  · intro u _ a ha
    exact ⟨(h.calls u a ha).1, fun v hv => (h.calls u a ha).2 v (hme v hv)⟩

variable {startAddress : Nat}

theorem allocate (h : SpaceOk s) (hvacant : s.Vacant startAddress) :
    SpaceOk { s.goto t (.inserting c startAddress) with
      poolSpace := s.poolSpace ++ [startAddress] } := by
  have hpos : 0 < viewCacheSize := by decide
  have hw : startAddress ∉ s.poolSpace := fun hme => by
    have := hvacant _ hme
    omega
  have hp : ∀ a ∈ s.poolSpace, a ∈ s.poolSpace ++ [startAddress] := fun a ha =>
    mem_append_left _ ha
  refine h.change rfl h.apart (fun v hv => hp _ (h.reserved v hv)) ?_ ?_ ?_
  · intro a ha b hb hab
    rcases mem_append.1 ha with ha | ha <;> rcases mem_append.1 hb with hb | hb
    · exact h.disjoint a ha b hb hab
    · rw [mem_singleton.1 hb]
      exact (hvacant a ha).symm
    · rw [mem_singleton.1 ha]
      exact hvacant b hb
    · exact absurd ((mem_singleton.1 ha).trans (mem_singleton.1 hb).symm) hab
  · intro a ha
    obtain rfl : startAddress = a := some.inj ha
    exact ⟨⟨mem_append_right _ mem_cons_self,
      fun v hv hva => hw (hva ▸ h.reserved v hv)⟩, fun u _ hu => hw (h.calls u _ hu).1⟩
  · intro u _ a ha
    exact ⟨hp a (h.calls u a ha).1, (h.calls u a ha).2⟩

theorem free (h : SpaceOk s) (hsp : space (s.thread t) = some startAddress) (hc : space call = none) :
    SpaceOk { s.goto t call with poolSpace := s.poolSpace.filter (· ≠ startAddress) } := by
  have hp : ∀ a ∈ s.poolSpace, a ≠ startAddress → a ∈ s.poolSpace.filter (· ≠ startAddress) :=
    fun a ha hne => mem_filter.2 ⟨ha, by simpa using hne⟩
  have hsb : ∀ a ∈ s.poolSpace.filter (· ≠ startAddress), a ∈ s.poolSpace := fun a ha =>
    (mem_filter.1 ha).1
  refine h.change rfl h.apart ?_ ?_ ?_ ?_
  · intro v hv
    exact hp _ (h.reserved v hv) ((h.calls t _ hsp).2 v hv)
  · intro a ha b hb hab
    exact h.disjoint a (hsb a ha) b (hsb b hb) hab
  · intro a ha
    rw [hc] at ha
    cases ha
  · intro u hu a ha
    refine ⟨hp a (h.calls u a ha).1 ?_, (h.calls u a ha).2⟩
    rintro rfl
    exact hu (h.exclusive u t a ha hsp)

theorem insert (h : SpaceOk s) {cur : Cursor (Vad F)} (hc : s.thread t = .inserting c startAddress)
    (hcursor : insertItem Vad.startVa s.vadTree (c.newVad s.vadCount startAddress) = some cur) :
    SpaceOk { s.goto t (.mapping c (c.newVad s.vadCount startAddress)) with
      vadTree := cur.toTree, vadCount := s.vadCount + 1 } := by
  obtain ⟨hpl, hfr⟩ := h.calls t startAddress (hc ▸ rfl)
  obtain ⟨l, r, htree, rfl, hl, hr⟩ := insertItem_eq_some hcursor h.ordered
  have hme : ∀ v ∈ Cursor.toTree ⟨l.reverse, c.newVad s.vadCount startAddress, r⟩,
      v = c.newVad s.vadCount startAddress ∨ v ∈ s.vadTree := by
    intro v hv
    simp only [Cursor.toTree, reverse_reverse, mem_append, mem_cons] at hv
    rw [htree, mem_append]
    tauto
  -- Two handed out ranges that start in one order are apart in that order.
  have hsp : ∀ a ∈ s.poolSpace, ∀ b ∈ s.poolSpace, a < b → a + viewCacheSize ≤ b := by
    intro a ha b hb hab
    have := h.disjoint a ha b hb (by omega)
    omega
  have hrs := h.reserved
  have hp := h.apart
  rw [htree, pairwise_append] at hp
  refine h.change rfl ?_ ?_ h.disjoint ?_ ?_
  · simp only [Cursor.toTree, reverse_reverse]
    refine pairwise_append.2 ⟨hp.1, pairwise_cons.2 ⟨?_, hp.2.1⟩, ?_⟩
    · intro w hw
      exact hsp _ hpl _ (hrs w (htree ▸ mem_append_right _ hw)) (hr w hw)
    · intro v hv w hw
      rcases mem_cons.1 hw with rfl | hw
      · exact hsp _ (hrs v (htree ▸ mem_append_left _ hv)) _ hpl (hl v hv)
      · exact hp.2.2 v hv w hw
  · intro v hv
    rcases hme v hv with rfl | hv
    · exact hpl
    · exact hrs v hv
  · intro a ha
    cases ha
  · intro u hu a ha
    refine ⟨(h.calls u a ha).1, fun v hv => ?_⟩
    rcases hme v hv with rfl | hv
    · rintro rfl
      exact hu (h.exclusive u t _ ha (hc ▸ rfl))
    · exact (h.calls u a ha).2 v hv

end

theorem turn (h : SpaceOk s) (hs : Turn s t s')
    (hc : ∀ c vp, s.thread t = .unmapping c vp → s.MayTake t vp) :
    SpaceOk s' := by
  cases hs with
  | move call lru hmv => exact h.same rfl rfl rfl hmv.space
  | find c v hcl hsize hv => exact h.same rfl rfl rfl (hcl ▸ rfl)
  | enter c m hcl hm => exact h.same rfl rfl rfl (hcl ▸ rfl)
  | leave c m hcl hm =>
    refine h.same rfl rfl rfl ?_
    rcases hcl with hcl | hcl <;> exact hcl ▸ rfl
  | take c vp cur hcl hcursor =>
    exact h.take hcursor (hc c vp hcl cur hcursor).1
  | lock c vp v m hcl hm => exact h.same rfl rfl rfl (hcl ▸ rfl)
  | uncache c vp v m hcl hm => exact h.same rfl rfl rfl (hcl ▸ rfl)
  | allocate c startAddress hcl hvacant => exact h.allocate hvacant
  | free call startAddress hp hdrops => exact h.free hp hdrops.space
  | insert c startAddress cur hcl hcursor => exact h.insert hcl hcursor
  | relock c v m hcl hm => exact h.same rfl rfl rfl (hcl ▸ rfl)
  | cache c v m hcl hm => exact h.same rfl rfl rfl (hcl ▸ rfl)

omit [DecidableEq F] [DecidableEq T] in
theorem translate_of_mem (h : SpaceOk s) {v : Vad F} (hv : v ∈ s.vadTree) {i : Nat}
    (hi : i < viewCacheSize) :
    s.translate (v.startVa + i) = some (v.file, v.sectionOffset + i) := by
  obtain ⟨l, r, htree⟩ := append_of_mem hv
  have ha := h.apart
  rw [htree, pairwise_append, pairwise_cons] at ha
  obtain ⟨-, ⟨hnext, -⟩, hc⟩ := ha
  have hlk : lookUpApproximate Vad.startVa s.vadTree (v.startVa + i) = some ⟨l.reverse, v, r⟩ := by
    rw [htree]
    refine lookUpApproximate_between ?_ (Nat.le_add_right ..) ?_
    · intro w hw
      have := hc w hw v mem_cons_self
      omega
    · intro w hw
      have := hnext w hw
      omega
  rw [translate, hlk, bind_some, if_pos (Nat.add_lt_add_left hi _), Nat.add_sub_cancel_left]

end SpaceOk

end Views

end Boron.Cc
