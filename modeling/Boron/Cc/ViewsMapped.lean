import Boron.Cc.ViewTurns

/-! # Views stay mapped while they are copied through

The views in use are in the system's tree (`UseOk`), and so are the entries of the files' trees
unless they are being unmapped (`CacheOk`). The copier's mutex carries the first over the step that
takes a VAD out of the tree, and the second gives the first its views. -/

namespace Boron.Cc

open Function List Option

namespace Views

variable {F T : Type} [DecidableEq F] [DecidableEq T]

/-! ## The views in use -/

omit [DecidableEq T] in
theorem busy_of_uses {call : Call F} {c : Transfer F} {v : Vad F} (h : uses call = some (c, v)) :
    busyWindow call = some c.window ∧ holds call c.file ≠ 0 := by
  cases call <;> cases h <;> simp [busyWindow, holds]

/-- Every view in use is in the tree, and it is of the window that the transfer is at. -/
def UseOk (s : Views F T) : Prop :=
  ∀ t c v, uses (s.thread t) = some (c, v) →
    v ∈ s.vadTree ∧ v.file = c.file ∧ v.sectionOffset = windowOf c.fileOffset

/-- Every entry of a file's tree is of that file, and it is in the system's tree unless it is being
unmapped. -/
def CacheOk (s : Views F T) : Prop :=
  ∀ f, ∀ v ∈ s.viewCache f,
    v.file = f ∧ (v ∈ s.vadTree ∨ ∃ t, unmaps (s.thread t) = some v)

namespace UseOk

variable {s s' : Views F T} {t : T} {call : Call F}

omit [DecidableEq F] in
/-- A step that takes nothing from the tree. -/
theorem change (h : UseOk s) (htree : ∀ v ∈ s.vadTree, v ∈ s'.vadTree)
    (hh : s'.thread = update s.thread t call)
    (hc : ∀ c v, uses call = some (c, v) →
      v ∈ s'.vadTree ∧ v.file = c.file ∧ v.sectionOffset = windowOf c.fileOffset) :
    UseOk s' := by
  intro u c v hv
  rw [hh] at hv
  by_cases hu : u = t
  · subst hu
    rw [update_self] at hv
    exact hc c v hv
  · rw [update_of_ne hu] at hv
    exact ⟨htree v (h u c v hv).1, (h u c v hv).2⟩

omit [DecidableEq F] in
theorem same (h : UseOk s) (htree : s'.vadTree = s.vadTree) (hh : s'.thread = update s.thread t call)
    (hc : uses call = none ∨ uses call = uses (s.thread t)) : UseOk s' := by
  refine h.change (fun v hv => htree ▸ hv) hh fun c v hv => ?_
  rcases hc with hc | hc
  · rw [hc] at hv
    cases hv
  · rw [htree]
    exact h t c v (hc ▸ hv)

/-- No other thread uses the VAD that is taken out: it would own the file's mutex. -/
theorem take (h : UseOk s) (hmt : MutexOk s) {c : Transfer F} {vp : Nat}
    {cur : Cursor (Vad F)} (hcl : s.thread t = .unmapping c vp)
    (hcursor : lookUpApproximate Vad.startVa s.vadTree vp = some cur)
    (hc : s.MayTake t vp) :
    UseOk { s.goto t (.waiting c vp cur.entry) with vadTree := cur.remove } := by
  obtain ⟨htree, -⟩ := lookUpApproximate_eq_some hcursor
  intro u d v hv
  by_cases hu : u = t
  · subst hu
    simp only [goto, update_self] at hv
    cases hv
  · simp only [goto, update_of_ne hu] at hv
    obtain ⟨hme, hfl, hof⟩ := h u d v hv
    obtain ⟨hb, hholds⟩ := busy_of_uses hv
    rw [← htree, cur.toTree_perm.mem_iff, mem_cons] at hme
    rcases hme with rfl | hme
    · exfalso
      refine (hc cur hcursor).2 u hu (hfl ▸ hmt.owner hholds) (hb.trans ?_)
      rw [Vad.key, hof, windowOf, Nat.mul_div_cancel _ (by decide)]
      rfl
    · exact ⟨hme, hfl, hof⟩

omit [DecidableEq F] in
/-- The view that `CciGetViewOfFile` finds is in the tree, as nobody is unmapping it. -/
theorem find (h : UseOk s) (hh : CacheOk s) {c : Transfer F} {v : Vad F} (hsize : c.size ≠ 0)
    (hv : s.lookUpView c = some v) (hc : s.MayUse c) : UseOk (s.goto t (.copying c v)) := by
  refine h.change (fun _ hw => hw) rfl fun d w hw => ?_
  cases hw
  obtain ⟨hfl, hme⟩ := hh c.file v (mem_of_find?_eq_some hv)
  have hy : v.key = c.window := by simpa using List.find?_some hv
  refine ⟨?_, hfl, ?_⟩
  · rcases hme with hme | ⟨u, hu⟩
    · exact hme
    · exact absurd hu (hc hsize v hv u)
  · have hdv := Nat.div_add_mod v.sectionOffset viewCacheSize
    rw [v.aligned, ← Vad.key, hy, Nat.mul_comm, Nat.add_zero] at hdv
    rw [← hdv, Transfer.window, windowOf]

theorem turn (h : UseOk s) (hmt : MutexOk s) (hh : CacheOk s) (hs : Turn s t s')
    (htk : ∀ c vp, s.thread t = .unmapping c vp → s.MayTake t vp)
    (hu : ∀ c, s.thread t = .looping c → s.MayUse c) : UseOk s' := by
  cases hs with
  | move call lru hmv => exact h.same rfl rfl hmv.uses
  | find c v hc hsize hv => exact h.find hh hsize hv (hu c hc)
  | enter c m hc hm => exact h.same rfl rfl (.inl rfl)
  | leave c m hc hm => exact h.same rfl rfl (.inl rfl)
  | take c vp cur hc hcursor =>
    exact h.take hmt hc hcursor (htk c vp hc)
  | lock c vp v m hc hm => exact h.same rfl rfl (.inl rfl)
  | uncache c vp v m hc hm => exact h.same rfl rfl (.inl rfl)
  | allocate c sa hc hvacant => exact h.same rfl rfl (.inl rfl)
  | free call sa hp hdrops => exact h.same rfl rfl (.inl hdrops.uses)
  | insert c sa cur hc hcursor =>
    obtain ⟨he, hrm⟩ := toTree_of_insertItem hcursor
    refine h.change ?_ rfl ?_
    · intro v hv
      exact cur.toTree_perm.mem_iff.2 (mem_cons_of_mem _ (hrm ▸ hv))
    · intro d v hv
      cases hv
      exact ⟨cur.toTree_perm.mem_iff.2 (he ▸ mem_cons_self), rfl, rfl⟩
  | relock c v m hc hm => exact h.same rfl rfl (.inr (hc ▸ rfl))
  | cache c v m hc hm => exact h.same rfl rfl (.inr (hc ▸ rfl))

end UseOk

/-! ## The files' trees -/

namespace CacheOk

variable {s s' : Views F T} {t : T} {call : Call F}

omit [DecidableEq F] in
/-- A call that goes on unmapping what it did stands for its entry as before. -/
theorem unmapping_of (hh : s'.thread = update s.thread t call)
    (hc : unmaps call = unmaps (s.thread t)) {v : Vad F}
    (h : ∃ u, unmaps (s.thread u) = some v) : ∃ u, unmaps (s'.thread u) = some v := by
  obtain ⟨u, hu⟩ := h
  refine ⟨u, ?_⟩
  rw [hh]
  by_cases hut : u = t
  · subst hut
    rw [update_self, hc]
    exact hu
  · rw [update_of_ne hut]
    exact hu

omit [DecidableEq F] in
theorem same (h : CacheOk s) (hc : s'.viewCache = s.viewCache) (htree : ∀ v ∈ s.vadTree, v ∈ s'.vadTree)
    (hh : s'.thread = update s.thread t call)
    (hcl : unmaps call = unmaps (s.thread t)) : CacheOk s' := by
  intro f v hv
  rw [hc] at hv
  obtain ⟨hfl, hme⟩ := h f v hv
  exact ⟨hfl, hme.imp (htree v) (unmapping_of hh hcl)⟩

omit [DecidableEq F] in
theorem take (h : CacheOk s) {c : Transfer F} {vp : Nat} {cur : Cursor (Vad F)}
    (hc : s.thread t = .unmapping c vp)
    (hcursor : lookUpApproximate Vad.startVa s.vadTree vp = some cur) :
    CacheOk { s.goto t (.waiting c vp cur.entry) with vadTree := cur.remove } := by
  obtain ⟨htree, -⟩ := lookUpApproximate_eq_some hcursor
  intro f v hv
  obtain ⟨hfl, hme⟩ := h f v hv
  refine ⟨hfl, ?_⟩
  rw [← htree, cur.toTree_perm.mem_iff, mem_cons] at hme
  rcases hme with (rfl | hme) | ⟨u, hu⟩
  · refine .inr ⟨t, ?_⟩
    simp only [goto, update_self, unmaps]
  · exact .inl hme
  · refine .inr ⟨u, ?_⟩
    have hut : u ≠ t := by
      rintro rfl
      rw [hc] at hu
      cases hu
    simpa only [goto, update_of_ne hut] using hu

/-- The entry is gone before the call stops standing for it. -/
theorem uncache (h : CacheOk s) {c : Transfer F} {vp : Nat} {v : Vad F} {m : Mutex T}
    (hc : s.thread t = .removing c vp v) :
    CacheOk { (s.uncache v).goto t (.removed c vp v) with
      viewCacheMutex := update s.viewCacheMutex v.file m } := by
  intro f w hw
  have hold : w ∈ s.viewCache f ∧ w ≠ v := by
    by_cases hf : f = v.file
    · subst hf
      simpa [Views.uncache, Views.goto] using hw
    · have hme : w ∈ s.viewCache f := by simpa [Views.uncache, Views.goto, hf] using hw
      refine ⟨hme, ?_⟩
      rintro rfl
      exact hf (h f w hme).1.symm
  obtain ⟨hfl, hme⟩ := h f w hold.1
  refine ⟨hfl, ?_⟩
  rcases hme with hme | ⟨u, hu⟩
  · exact .inl hme
  · refine .inr ⟨u, ?_⟩
    have hut : u ≠ t := by
      rintro rfl
      rw [hc] at hu
      exact hold.2 (some.inj hu).symm
    simpa only [Views.uncache, Views.goto, update_of_ne hut] using hu

theorem cache (h : CacheOk s) (hu : UseOk s) {c : Transfer F} {v : Vad F} {m : Mutex T}
    (hc : s.thread t = .caching c v) :
    CacheOk { (s.cache v).goto t (.adding c v) with
      viewCacheMutex := update s.viewCacheMutex c.file m } := by
  obtain ⟨hv, hfl, -⟩ := hu t c v (hc ▸ rfl)
  intro f w hw
  have hold : w ∈ s.viewCache f ∨ w = v ∧ v.file = f := by
    by_cases hf : f = v.file
    · subst hf
      simp only [Views.cache, Views.goto, update_self] at hw
      cases hin : insertItem Vad.key (s.viewCache v.file) v with
      | none => exact .inl (by simpa [hin] using hw)
      | some cur =>
        rw [hin, map_some, getD_some, cur.toTree_perm.mem_iff,
          mem_cons, (toTree_of_insertItem hin).1, (toTree_of_insertItem hin).2] at hw
        rcases hw with hw | hw
        · exact .inr ⟨hw, rfl⟩
        · exact .inl hw
    · exact .inl (by simpa [Views.cache, Views.goto, hf] using hw)
  rcases hold with hold | ⟨rfl, hf⟩
  · obtain ⟨hwf, hme⟩ := h f w hold
    exact ⟨hwf, hme.imp id (unmapping_of rfl (hc ▸ rfl))⟩
  · exact ⟨hf, .inl hv⟩

theorem turn (h : CacheOk s) (hu : UseOk s) (hs : Turn s t s') : CacheOk s' := by
  cases hs with
  | move call lru hmv => exact h.same rfl (fun _ hv => hv) rfl hmv.unmaps
  | find c v hc hsize hv => exact h.same rfl (fun _ hv => hv) rfl (hc ▸ rfl)
  | enter c m hc hm => exact h.same rfl (fun _ hv => hv) rfl (hc ▸ rfl)
  | leave c m hc hm =>
    refine h.same rfl (fun _ hv => hv) rfl ?_
    rcases hc with hc | hc <;> exact hc ▸ rfl
  | take c vp cur hc hcursor => exact h.take hc hcursor
  | lock c vp v m hc hm => exact h.same rfl (fun _ hv => hv) rfl (hc ▸ rfl)
  | uncache c vp v m hc hm => exact h.uncache hc
  | allocate c sa hc hvacant =>
    exact h.same rfl (fun _ hv => hv) rfl (hc ▸ rfl)
  | free call sa hp hdrops =>
    exact h.same rfl (fun _ hv => hv) rfl (hdrops.unmaps.2.trans hdrops.unmaps.1.symm)
  | insert c sa cur hc hcursor =>
    refine h.same rfl (fun v hv => ?_) rfl (hc ▸ rfl)
    exact cur.toTree_perm.mem_iff.2 (mem_cons_of_mem _ ((toTree_of_insertItem hcursor).2 ▸ hv))
  | relock c v m hc hm => exact h.same rfl (fun _ hv => hv) rfl (hc ▸ rfl)
  | cache c v m hc hm => exact h.cache hu hc

end CacheOk

/-! ## Runs -/

structure Inv (s : Views F T) : Prop where
  mutex : MutexOk s
  space : SpaceOk s
  use : UseOk s
  cache : CacheOk s

namespace Inv

variable {s s' : Views F T}

theorem start (see : F → Bool) : Inv (start see : Views F T) where
  mutex := fun _ _ => rfl
  space :=
    { apart := List.Pairwise.nil
      reserved := nofun
      disjoint := nofun
      calls := nofun
      exclusive := nofun }
  use := nofun
  cache := nofun

theorem step (h : Inv s) {a : Action F T} (hc : s.Calm a) (hs : s.step a = some s') :
    Inv s' := by
  cases a with
  | call t c =>
    simp only [Views.step] at hs
    split at hs
    · next hil =>
        cases hs
        exact
          { mutex := h.mutex.goto (hil ▸ rfl)
            space := h.space.same rfl rfl rfl (hil ▸ rfl)
            use := h.use.same rfl rfl (.inl rfl)
            cache := h.cache.same rfl (fun _ hv => hv) rfl (hil ▸ rfl) }
    · cases hs
  | turn t answers =>
    have htr := turn_cases hs
    have htk : ∀ c viewPointer, s.thread t = .unmapping c viewPointer →
        s.MayTake t viewPointer := by
      intro c viewPointer hcl
      simpa only [Calm, hcl] using hc
    have hu : ∀ c, s.thread t = .looping c → s.MayUse c := by
      intro c hcl
      simpa only [Calm, hcl] using hc
    exact
      { mutex := h.mutex.turn htr
        space := h.space.turn htr htk
        use := h.use.turn h.mutex h.cache htr htk hu
        cache := h.cache.turn h.use htr }

theorem safe (h : Inv s) : Safe s where
  copied := by
    intro t c v hc
    obtain ⟨hv, hfl, hof⟩ := h.use t c v (hc ▸ rfl)
    refine ⟨hv, fun i hi => ?_⟩
    rw [h.space.translate_of_mem hv hi, hfl, hof]
  cached := fun f v hv => (h.cache f v hv).2

end Inv

/-- While the steps keep clear of each other's views, every view that is copied through stays mapped
and no entry of a file's tree outlives the call that unmaps its view. -/
theorem views_safe_of_calm (seekable : F → Bool) {s : Views F T}
    (h : Reaches step Calm (start seekable) s) : Safe s := by
  refine (h.invariant (I := Inv) (Inv.start seekable) ?_).safe
  intro s a s' hin hc hs
  exact hin.step hc hs

theorem reaches_turn {C : Views F T → Action F T → Prop} {s t u : Views F T}
    (h : Reaches step C s t) (thr : T) (ans : Answers) (hC : C t (.turn thr ans))
    (htr : t.turn thr ans = some u) : Reaches step C s u :=
  .tail (a := .turn thr ans) h hC htr

/-- A first read maps its view and copies through it. -/
theorem views_safe_of_calm_read : ∃ s : Views Bool Bool, Reaches step Calm (start fun _ => true) s ∧
      (∃ v, s.thread false = .copying ⟨false, 0, 1⟩ v) ∧ Safe s := by
  have hcl : Reaches step Calm (start fun _ => true : Views Bool Bool) _ :=
    .tail (a := .call false ⟨false, 0, 1⟩) .refl trivial rfl
  have he := reaches_turn hcl false ⟨some 0, true⟩ trivial rfl
  have hlk := reaches_turn he false ⟨some 0, true⟩ (fun _ => nofun) rfl
  have hp := reaches_turn hlk false ⟨some 0, true⟩ trivial rfl
  have hal := reaches_turn hp false ⟨some 0, true⟩ trivial rfl
  have hin := reaches_turn hal false ⟨some 0, true⟩ trivial rfl
  have hlc := reaches_turn hin false ⟨some 0, true⟩ trivial rfl
  have hc := reaches_turn hlc false ⟨some 0, true⟩ trivial rfl
  have ha := reaches_turn hc false ⟨some 0, true⟩ trivial rfl
  exact ⟨_, ha, ⟨_, rfl⟩, views_safe_of_calm _ ha⟩

/-! ## Two files and a full list -/

/-- The view of the window `i` of the file `false`. -/
def view (i : Nat) : Vad Bool :=
  ⟨i, i * viewCacheSize, false, i * viewCacheSize, Nat.mul_mod_left ..⟩

def viewsBelow (n : Nat) : List (Vad Bool) := (List.range n).map view

/-- What is left, after `n` windows, of a read of as many windows as there may be views. -/
def rest (n : Nat) : Transfer Bool :=
  ⟨false, n * viewCacheSize, (viewCacheMaxCount - n) * viewCacheSize⟩

/-- One thread has read `n` windows of one file, and nothing else has happened. -/
structure Filled (n : Nat) (s : Views Bool Bool) : Prop where
  seekable : s.seekable = fun _ => true
  vadTree : s.vadTree = viewsBelow n
  viewCache : s.viewCache false = viewsBelow n
  noViews : s.viewCache true = []
  viewCacheLru : s.viewCacheLru = viewsBelow n
  mutex : s.viewCacheMutex false = Mutex.held false 0
  noMutex : s.viewCacheMutex true = Mutex.free
  poolSpace : s.poolSpace = (List.range n).map (· * viewCacheSize)
  vadCount : s.vadCount = n
  thread : s.thread false = .looping (rest n)
  idle : s.thread true = .idle

theorem view_key (i : Nat) : (view i).key = i := Nat.mul_div_cancel _ (by decide)

theorem viewsBelow_succ (n : Nat) : viewsBelow (n + 1) = viewsBelow n ++ [view n] := by
  simp [viewsBelow, range_succ]

theorem newVad_rest (n : Nat) : (rest n).newVad n (n * viewCacheSize) = view n := by
  have hw : windowOf (n * viewCacheSize) = n * viewCacheSize := by
    rw [windowOf, Nat.mul_div_cancel _ (by decide)]
  simp only [Transfer.newVad, rest, view, hw]

theorem next_rest {n : Nat} (hn : n < viewCacheMaxCount) : (rest n).next = rest (n + 1) := by
  have hsize : ¬ (viewCacheMaxCount - n) * viewCacheSize < viewCacheSize := by
    simp only [viewCacheMaxCount, viewCacheSize] at hn ⊢
    omega
  have ha : (rest n).copyAmount = viewCacheSize := by
    simp only [Transfer.copyAmount, rest, Nat.mul_mod_left, Nat.sub_zero, if_neg hsize]
  simp only [Transfer.next, ha]
  simp only [rest, viewCacheMaxCount, viewCacheSize, Transfer.mk.injEq, true_and] at hn ⊢
  omega

theorem insert_view {κ : Type} [LinearOrder κ] (key : Vad Bool → κ) {n : Nat}
    (h : ∀ i < n, key (view i) < key (view n)) :
    insertItem key (viewsBelow n) (view n) = some ⟨(viewsBelow n).reverse, view n, []⟩ := by
  have hb : ∀ v ∈ viewsBelow n, key v < key (view n) := by
    intro v hv
    obtain ⟨i, hi, rfl⟩ := List.mem_map.1 hv
    exact h i (mem_range.1 hi)
  simpa using insertItem_between (r := []) hb (by simp)

theorem toTree_viewsBelow (n : Nat) :
    Cursor.toTree ⟨(viewsBelow n).reverse, view n, []⟩ = viewsBelow (n + 1) := by
  rw [Cursor.toTree, reverse_reverse, viewsBelow_succ]

omit [DecidableEq F] [DecidableEq T] in
theorem mmAllocatePoolBig_of_vacant {s : Views F T} {sa : Nat} (h : s.Vacant sa) :
    s.mmAllocatePoolBig sa = some { s with poolSpace := s.poolSpace ++ [sa] } :=
  if_pos h

/-- The next window of the read is mapped, as long as the list is not full. -/
theorem Filled.next {n : Nat} (hn : n < viewCacheMaxCount) {s₀ s : Views Bool Bool}
    (hs : Reaches step (fun _ _ => True) s₀ s) (h : Filled n s) :
    ∃ s', Reaches step (fun _ _ => True) s₀ s' ∧ Filled (n + 1) s' := by
  let answers : Answers := ⟨some (n * viewCacheSize), true⟩
  have hsize : (rest n).size ≠ 0 := by
    simp only [rest, viewCacheMaxCount, viewCacheSize] at hn ⊢
    omega
  have hlp : s.lookUpView (rest n) = none := by
    refine List.find?_eq_none.2 fun v hv => ?_
    obtain ⟨i, hi, rfl⟩ := List.mem_map.1 (h.viewCache ▸ hv : v ∈ viewsBelow n)
    have hw : (rest n).window = n := Nat.mul_div_cancel _ (by decide)
    rw [view_key, hw]
    simpa using (mem_range.1 hi).ne
  have hrm : ¬ viewCacheMaxCount - 1 < s.viewCacheLru.length := by
    rw [h.viewCacheLru, viewsBelow, length_map, length_range]
    omega
  have hvacant : ∀ r ∈ s.poolSpace,
      n * viewCacheSize + viewCacheSize ≤ r ∨ r + viewCacheSize ≤ n * viewCacheSize := by
    intro r hr
    rw [h.poolSpace] at hr
    obtain ⟨i, hi, rfl⟩ := List.mem_map.1 hr
    have := mem_range.1 hi
    simp only [viewCacheSize]
    omega
  have hin := insert_view Vad.startVa (n := n) fun i hi => by
    simp only [view, viewCacheSize]
    omega
  have hh := insert_view Vad.key (n := n) fun i hi => by
    rwa [view_key, view_key]
  have hnw : view n ∉ viewsBelow n := by
    intro hv
    obtain ⟨i, hi, heq⟩ := List.mem_map.1 hv
    exact (mem_range.1 hi).ne (congrArg Vad.vad heq)
  have hlk := reaches_turn hs false answers trivial
    (u := s.goto false (.purging (rest n))) (by
      simp only [turn, h.thread, if_neg hsize, hlp, h.seekable, if_true])
  have hp := reaches_turn hlk false answers trivial
    (u := s.goto false (.allocating (rest n))) (by
      simp only [turn, goto, update_self, if_neg hrm, update_idem])
  let a : Views Bool Bool := { s with poolSpace := s.poolSpace ++ [n * viewCacheSize] }
  let b : Views Bool Bool := { a with vadTree := viewsBelow (n + 1), vadCount := n + 1 }
  let c : Views Bool Bool := { b with
    viewCache := update s.viewCache false (viewsBelow (n + 1))
    viewCacheMutex := update s.viewCacheMutex false (Mutex.held false 0) }
  let d : Views Bool Bool := { c with viewCacheLru := viewsBelow (n + 1) }
  have hal := reaches_turn hp false answers trivial
    (u := a.goto false (.inserting (rest n) (n * viewCacheSize))) (by
      simp only [turn, goto, update_self, answers, a]
      rw [mmAllocatePoolBig_of_vacant]
      · simp only [map_some, update_idem]
      · exact hvacant)
  have hmp := reaches_turn hal false answers trivial
    (u := b.goto false (.mapping (rest n) (view n))) (by
      simp only [turn, goto, update_self, answers, miInitializeAndInsertVad, if_true, a, b,
        h.vadCount, h.vadTree, newVad_rest, hin, toTree_viewsBelow, update_idem])
  have hlc := reaches_turn hmp false answers trivial
    (u := { b.goto false (.caching (rest n) (view n)) with
      viewCacheMutex := update s.viewCacheMutex false (Mutex.held false 1) }) (by
      simp only [turn, goto, acquire, update_self, rest, h.mutex, Mutex.acquire_held, a, b,
        map_some, update_idem])
  have ha := reaches_turn hlc false answers trivial
    (u := c.goto false (.adding (rest n) (view n))) (by
      have hfl : (view n).file = false := rfl
      simp only [turn, goto, release, cache, update_self, rest, Mutex.release_held_succ, a, b, c,
        map_some, update_idem, hfl, h.viewCache, hh, getD_some, toTree_viewsBelow])
  have hc := reaches_turn ha false answers trivial
    (u := d.goto false (.copying (rest n) (view n))) (by
      simp only [turn, goto, update_self, ccAddVadToViewCacheLru, h.viewCacheLru, a, b, c, d,
        if_neg hnw, ← viewsBelow_succ, update_idem])
  have hnext := reaches_turn hc false answers trivial
    (u := d.goto false (.looping (rest (n + 1)))) (by
      simp only [turn, goto, update_self, next_rest hn, update_idem])
  refine ⟨_, hnext, ?_⟩
  exact
    { seekable := h.seekable
      vadTree := rfl
      viewCache := by simp [goto, c, d]
      noViews := h.noViews
      viewCacheLru := rfl
      mutex := by simp [goto, c, d]
      noMutex := h.noMutex
      poolSpace := by simp [goto, a, b, c, d, h.poolSpace, range_succ]
      vadCount := rfl
      thread := by simp [goto]
      idle := h.idle }

/-- Every state up to a full list is reached. -/
theorem filled_reached {n : Nat} (hn : n ≤ viewCacheMaxCount) :
    ∃ s, Reaches step (fun _ _ => True) (start fun _ => true) s ∧ Filled n s := by
  induction n with
  | zero =>
    have hc : Reaches step (fun _ _ => True) (start fun _ => true : Views Bool Bool) _ :=
      .tail (a := .call false (rest 0)) .refl trivial rfl
    have he := reaches_turn hc false ⟨none, true⟩ trivial rfl
    refine ⟨_, he, ?_⟩
    constructor <;> rfl
  | succ n ih =>
    obtain ⟨s, hs, h⟩ := ih (by omega)
    exact h.next hn hs

theorem lookUp_first (n : Nat) :
    ∃ r, lookUpApproximate Vad.startVa (viewsBelow (n + 1)) 0 = some ⟨[], view 0, r⟩ ∧ view 0 ∉ r := by
  have hsp : viewsBelow (n + 1) = [] ++ view 0 :: (List.range n).map fun i => view (i + 1) := by
    simp [viewsBelow, range_succ_eq_map]
  have hp : ∀ v ∈ (List.range n).map fun i => view (i + 1), 0 < v.startVa := by
    intro v hv
    obtain ⟨i, -, rfl⟩ := List.mem_map.1 hv
    simp only [view, viewCacheSize]
    omega
  have hfs : (view 0).startVa = 0 := Nat.zero_mul _
  refine ⟨(List.range n).map fun i => view (i + 1), ?_, fun hv => ?_⟩
  · rw [hsp]
    exact lookUpApproximate_between (by simp) hfs.le hp
  · have := hp _ hv
    omega

theorem turn_find {s : Views F T} {t : T} {c : Transfer F} {v : Vad F} {ans : Answers}
    (hc : s.thread t = .looping c) (hsize : c.size ≠ 0) (hv : s.lookUpView c = some v) :
    s.turn t ans = some (s.goto t (.copying c v)) := by
  simp only [turn, hc, if_neg hsize, hv]

theorem reaches_call {C : Views F T → Action F T → Prop} {s t : Views F T}
    (h : Reaches step C s t) (thr : T) (c : Transfer F) (hC : C t (.call thr c))
    (hil : t.thread thr = .idle) : Reaches step C s (t.goto thr (.entering c)) :=
  .tail (a := .call thr c) h hC (if_pos hil)

/-- With as many views as there may be, a read of another file unmaps the view that is being copied
through. -/
theorem views_not_safe :
    ¬ ∀ s : Views Bool Bool, Reaches step (fun _ _ => True) (start fun _ => true) s → Safe s := by
  intro hsf
  obtain ⟨s, hs, h⟩ := filled_reached (Nat.le_refl viewCacheMaxCount)
  obtain ⟨r, hlk, hr⟩ := lookUp_first (viewCacheMaxCount - 1)
  have hx : viewsBelow (viewCacheMaxCount - 1 + 1) = viewsBelow viewCacheMaxCount := rfl
  let answers : Answers := ⟨none, true⟩
  let c : Transfer Bool := ⟨false, 0, 1⟩
  let d : Transfer Bool := ⟨true, 0, 1⟩
  have hdn : (rest viewCacheMaxCount).size = 0 := by
    simp only [rest, Nat.sub_self, Nat.zero_mul]
  have hfn : s.lookUpView c = some (view 0) := by
    have hy : (view 0).key = c.window := (view_key 0).trans (Nat.zero_div _).symm
    rw [lookUpView, h.viewCache, ← hx, viewsBelow, range_succ_eq_map, map_cons,
      List.find?_cons_of_pos (by simpa using hy)]
  have hfl : viewCacheMaxCount - 1 < s.viewCacheLru.length := by
    rw [h.viewCacheLru, viewsBelow, length_map, length_range]
    decide
  have hh : s.viewCacheLru.head? = some (view 0) := by
    rw [h.viewCacheLru, ← hx, viewsBelow, range_succ_eq_map]
    rfl
  -- The thread `false` ends its read and starts another, of the first window.
  have hen := reaches_turn hs false answers trivial
    (u := { s.goto false .idle with
      viewCacheMutex := update s.viewCacheMutex false Mutex.free }) (by
      simp only [turn, h.thread, if_pos hdn, release]
      simp only [rest, h.mutex, Mutex.release_held_zero, map_some])
  have hcl := reaches_call hen false c trivial (by simp [goto])
  have he := reaches_turn hcl false answers trivial
    (u := { s.goto false (.looping c) with
      viewCacheMutex := update s.viewCacheMutex false (Mutex.held false 0) }) (by
      simp only [turn, goto, update_self, acquire, c, Mutex.acquire_free, map_some, update_idem])
  have hc := reaches_turn he false answers trivial
    (u := { s.goto false (.copying c (view 0)) with
      viewCacheMutex := update s.viewCacheMutex false (Mutex.held false 0) }) (by
      refine (turn_find (c := c) (v := view 0) ?_ ?_ ?_).trans ?_
      · simp [goto]
      · decide
      · exact hfn
      · simp only [goto, update_idem])
  -- The thread `true` reads another file and has to make room.
  have hcl' := reaches_call hc true d trivial h.idle
  have he' := reaches_turn hcl' true answers trivial
    (u := { (s.goto false (.copying c (view 0))).goto true (.looping d) with
      viewCacheMutex := update (update s.viewCacheMutex false (Mutex.held false 0))
        true (Mutex.held true 0) }) (by
      simp only [turn, goto, update_self, acquire, d]
      rw [update_of_ne (by decide), h.noMutex]
      simp only [Mutex.acquire_free, map_some, update_idem])
  have hlk' := reaches_turn he' true answers trivial
    (u := { (s.goto false (.copying c (view 0))).goto true (.purging d) with
      viewCacheMutex := update (update s.viewCacheMutex false (Mutex.held false 0))
        true (Mutex.held true 0) }) (by
      simp only [turn, goto, update_self, lookUpView, d, h.noViews, List.find?_nil,
        h.seekable, if_true, update_idem]
      rfl)
  have hp := reaches_turn hlk' true answers trivial
    (u := { (s.goto false (.copying c (view 0))).goto true (.unmapping d 0) with
      viewCacheMutex := update (update s.viewCacheMutex false (Mutex.held false 0))
        true (Mutex.held true 0) }) (by
      simp only [turn, goto, update_self, if_pos hfl, hh, map_some, update_idem]
      simp only [view, Nat.zero_mul])
  have htk := reaches_turn hp true answers trivial
    (u := { (s.goto false (.copying c (view 0))).goto true (.waiting d 0 (view 0)) with
      vadTree := r
      viewCacheMutex := update (update s.viewCacheMutex false (Mutex.held false 0))
        true (Mutex.held true 0) }) (by
      simp only [turn, goto, update_self, takeVad, h.vadTree, ← hx, hlk,
        map_some, Cursor.remove, reverse_nil, nil_append, update_idem])
  exact hr ((hsf _ htk).copied false c (view 0) (by simp [goto])).1

end Views

end Boron.Cc
