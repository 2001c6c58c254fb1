import Boron.Ps.ThreadRefs

/-! # Thread and process objects are counted right

The steps of the services keep `Inv`: the objects are counted as the handles, the running threads and
the calls say. Three slips break it: two services keep the reference that they take, a thread that
gets no kernel stack is left with the reference of the call that created it, and `PspTerminateThread`
reads the thread after it has dropped its reference. In runs without these the counts are right
(`threads_safe_of_calm`). -/

namespace Boron.Ps

open Function List Option

namespace Threads

variable {O : Type} [DecidableEq O] {s s' : Threads O} {o p : O}

/-! ## What is kept -/

/-- There is a thread of this process. -/
def ThreadOf (s : Threads O) (o p : O) : Prop :=
  ∃ x, s.object o = some x ∧ x.body.type = .thread ∧ x.body.ofThread = some p

def IsProcess (s : Threads O) (p : O) : Prop :=
  ∃ x, s.object p = some x ∧ x.body.type = .process

/-- What a call relies on. -/
def CallOk (s : Threads O) : Call O → Prop
  | .creating p => s.IsProcess p
  | .cleaning o p => s.ThreadOf o p ∧ s.IsProcess p
  | .cleaned o p => s.ThreadOf o p ∧ s.IsProcess p ∧ ∀ x, s.object o = some x → x.pointerCount ≠ 0
  | .terminating _ _ | .suspending _ _ => False
  | .initialized _ _ | .inserted _ _ _ | .undoing _ _ | .holding _ | .killing _ => True

/-- The objects are counted as the handles, threads and calls say, but for the references that the
step at hand has taken and not placed yet. -/
structure Accounted (s : Threads O) (hand : Multiset O) : Prop where
  heap : HeapOk s (hand + s.refs)
  started : (s.threadList.map Prod.fst).Nodup
  threads : ∀ e ∈ s.threadList, s.ThreadOf e.1 e.2 ∧ s.IsProcess e.2
  calls : ∀ call ∈ s.calls, s.CallOk call
  system : ∃ x, s.object s.systemProcess = some x ∧ x.body.type = .process ∧ x.permanent = true

theorem accounted_start (sp : O) : (start sp).Accounted 0 where
  heap := {
    counts := by
      intro o
      by_cases ho : o = sp
      · simp [start, refs, count, ho]
      · simp [start, refs, count, ho]
    reaper := fun o x hx => by
      by_cases ho : o = sp
      · simp [start, ho] at hx
        simp [start, ← hx]
      · simp [start, ho] at hx
    reaped := fun o ho => by simp [start] at ho
    nodup := nodup_nil }
  started := nodup_nil
  threads := fun e he => by simp [start] at he
  calls := fun call hc => by simp [start] at hc
  system := ⟨⟨0, true, .process⟩, update_self _ _ fun _ => none, rfl, rfl⟩

omit [DecidableEq O] in
theorem ThreadOf.keeps (h : s.ThreadOf o p) (hp : Keeps s s') (ho : s'.object o ≠ none) :
    s'.ThreadOf o p := by
  obtain ⟨x', hx'⟩ := ne_none_iff_exists'.1 ho
  obtain ⟨x, hx, hty, hh⟩ := h
  obtain hnn | ⟨y, hy, hh', hty', -⟩ := hp o x' hx'
  · rw [hx] at hnn
    cases hnn
  · cases hx.symm.trans hy
    exact ⟨x', hx', hty'.trans hty, hh'.trans hh⟩

omit [DecidableEq O] in
theorem IsProcess.keeps (h : s.IsProcess p) (hp : Keeps s s') (ho : s'.object p ≠ none) :
    s'.IsProcess p := by
  obtain ⟨x', hx'⟩ := ne_none_iff_exists'.1 ho
  obtain ⟨x, hx, hty⟩ := h
  obtain hnn | ⟨y, hy, -, hty', -⟩ := hp p x' hx'
  · rw [hx] at hnn
    cases hnn
  · cases hx.symm.trans hy
    exact ⟨x', hx', hty'.trans hty⟩

theorem HeapOk.object_ne_none {M : Multiset O} (h : HeapOk s M) (ho : o ∈ M) : s.object o ≠ none := by
  obtain ⟨x, hx, -⟩ := h.live ho
  simp [hx]

omit [DecidableEq O] in
theorem mem_refs_of_call {call : Call O} (h : call ∈ s.calls) (ho : o ∈ call.references) :
    o ∈ s.refs := by
  refine Multiset.mem_add.2 (.inr (Multiset.mem_coe.2 ?_))
  exact mem_flatMap.2 ⟨call, h, ho⟩

omit [DecidableEq O] in
theorem mem_refs_of_thread {e : O × O} (h : e ∈ s.threadList) : e.1 ∈ s.refs ∧ e.2 ∈ s.refs := by
  simp only [refs, Multiset.mem_add, Multiset.mem_coe]
  exact ⟨.inl (.inl (.inr (List.mem_map_of_mem h))), .inl (.inr (List.mem_map_of_mem h))⟩

omit [DecidableEq O] in
theorem mem_refs_of_handle {e : Handle O × O} (h : e ∈ s.handles) : e.2 ∈ s.refs := by
  simp only [refs, Multiset.mem_add, Multiset.mem_coe]
  exact .inl (.inl (.inl (List.mem_map_of_mem h)))

namespace Accounted

variable {hand : Multiset O} {call : Call O}

/-! ## Objects -/

variable {hand' : Multiset O}

theorem change (h : s.Accounted hand) (hh : HeapOk s' (hand' + s.refs))
    (hsm : SameHolders s s') (hkp : Keeps s s') (hsy : s'.object s.systemProcess ≠ none)
    (hread : ∀ o p, .cleaned o p ∈ s.calls → ∃ x, s'.object o = some x ∧ x.pointerCount ≠ 0) :
    s'.Accounted hand' := by
  have hlv (q : O) (hq : q ∈ s.refs) : s'.object q ≠ none :=
    hh.object_ne_none (Multiset.mem_add.2 (.inr hq))
  refine ⟨hsm.refs ▸ hh, hsm.threads ▸ h.started, fun e he => ?_, fun call hcl => ?_, ?_⟩
  · have he' : e ∈ s.threadList := hsm.threads ▸ he
    have hrf := mem_refs_of_thread he'
    exact ⟨(h.threads e he').1.keeps hkp (hlv _ hrf.1), (h.threads e he').2.keeps hkp (hlv _ hrf.2)⟩
  · have hcl' : call ∈ s.calls ∨ ∃ p, call = .killing p := by
      obtain hc | ⟨p, hc⟩ := hsm.calls
      · exact .inl (hc ▸ hcl)
      · rw [hc] at hcl
        obtain rfl | hold := mem_cons.1 hcl
        · exact .inr ⟨p, rfl⟩
        · exact .inl hold
    obtain hold | ⟨p, rfl⟩ := hcl'
    · have hok := h.calls call hold
      have hlv' (q : O) (hq : q ∈ call.references) : s'.object q ≠ none :=
        hlv q (mem_refs_of_call hold hq)
      cases call with
      | creating q => exact IsProcess.keeps hok hkp (hlv' q (by simp [Call.references]))
      | cleaning q r =>
        exact ⟨hok.1.keeps hkp (hlv' q (by simp [Call.references])),
          hok.2.keeps hkp (hlv' r (by simp [Call.references]))⟩
      | cleaned q r =>
        obtain ⟨x, hx, hcount⟩ := hread q r hold
        refine ⟨hok.1.keeps hkp (by simp [hx]),
          hok.2.1.keeps hkp (hlv' r (by simp [Call.references])), fun y hy => ?_⟩
        cases hx.symm.trans hy
        exact hcount
      | terminating _ _ => exact hok.elim
      | suspending _ _ => exact hok.elim
      | initialized _ _ => trivial
      | inserted _ _ _ => trivial
      | undoing _ _ => trivial
      | holding _ => trivial
      | killing _ => trivial
    · trivial
  · obtain ⟨x, hx, hty, hp⟩ := h.system
    obtain ⟨x', hx'⟩ := ne_none_iff_exists'.1 hsy
    rw [hsm.system]
    obtain hnn | ⟨y, hy, -, hty', hp'⟩ := hkp _ x' hx'
    · rw [hx] at hnn
      cases hnn
    · cases hx.symm.trans hy
      exact ⟨x', hx', hty'.trans hty, hp'.trans hp⟩

/-- The threads that `PspTerminateThread` has still to read are there. -/
theorem read (h : s.Accounted hand) (hc : .cleaned o p ∈ s.calls) :
    ∃ x, s.object o = some x ∧ x.pointerCount ≠ 0 := by
  obtain ⟨⟨x, hx, -⟩, -, hcount⟩ := h.calls _ hc
  exact ⟨x, hx, hcount x hx⟩

/-- A reference is taken of an object that is referred to, or of the system process. -/
theorem reference (h : s.Accounted hand) (ho : o ∈ hand + s.refs ∨ o = s.systemProcess)
    (hs : s.obReferenceObjectByPointer o = some s') : s'.Accounted (o ::ₘ hand) := by
  obtain ⟨x, hx, hlv⟩ : ∃ x, s.object o = some x ∧ (x.pointerCount ≠ 0 ∨ x.permanent = true) := by
    obtain hme | rfl := ho
    · obtain ⟨x, hx, hcount, -⟩ := h.heap.live hme
      exact ⟨x, hx, .inl hcount⟩
    · obtain ⟨x, hx, -, hp⟩ := h.system
      exact ⟨x, hx, .inr hp⟩
  obtain ⟨rfl, hh, hkp⟩ := reference_spec h.heap hx hlv hs
  refine h.change (Multiset.cons_add _ _ _ ▸ hh) ⟨rfl, rfl, rfl, .inl rfl⟩ hkp ?_ fun q r hc => ?_
  · obtain ⟨y, hy, -⟩ := h.system
    rw [object_set]
    split
    · exact nofun
    · simp [hy]
  · obtain ⟨y, hy, hcount⟩ := h.read hc
    rw [object_set]
    split
    · exact ⟨_, rfl, Nat.succ_ne_zero _⟩
    · exact ⟨y, hy, hcount⟩

/-- A reference is dropped, which is not the last of a thread that has still to be read. -/
theorem dereference (h : s.Accounted (o ::ₘ hand)) {highIpl : Bool}
    (hc : ∀ p, .cleaned o p ∈ s.calls → s.count o ≠ some 1)
    (hs : s.obDereferenceObject o highIpl = some s') : s'.Accounted hand := by
  have hh := h.heap
  rw [Multiset.cons_add] at hh
  obtain ⟨hh', hsm, x, hx, hb⟩ := dereference_spec hh hs
  refine h.change hh' hsm (keeps_dropped hx hb) ?_ fun q r hcl => ?_
  · obtain ⟨y, hy, -, hp⟩ := h.system
    rw [hb]
    split
    · next heq =>
        cases hy.symm.trans (heq ▸ hx)
        simp [dropped, hp]
    · simp [hy]
  · obtain ⟨y, hy, hcount⟩ := h.read hcl
    rw [hb]
    split
    · next heq =>
        subst heq
        cases hx.symm.trans hy
        have hon : x.pointerCount ≠ 1 := by
          intro hon
          refine hc r hcl ?_
          rw [count, hx, ← hon]
          rfl
        refine ⟨{ x with pointerCount := x.pointerCount - 1 }, ?_, ?_⟩
        · simp [dropped, hon]
        · show x.pointerCount - 1 ≠ 0
          omega
    · exact ⟨y, hy, hcount⟩

variable {x : Object O}

theorem create (h : s.Accounted hand) (ho : s.object o = none) (hx : x.pointerCount ≠ 0) :
    (s.set o (some x)).Accounted (Multiset.replicate x.pointerCount o + hand) := by
  have hh := h.heap
  have hnt : o ∉ s.reaperList := fun hme => hh.reaped o hme ho
  have hcount : s.count o = none := by rw [count, ho]; rfl
  refine h.change ⟨?_, fun q y hy => ?_, fun q hq => ?_, hh.nodup⟩ ⟨rfl, rfl, rfl, .inl rfl⟩
    (fun q y hy => ?_) ?_ fun q r hc => ?_
  · rw [count_set, add_assoc]
    exact hh.counts.create hcount x.pointerCount
  · rw [object_set] at hy
    split at hy
    · next heq =>
        cases hy
        exact ⟨fun hz => absurd hz.1 hx, fun hme => absurd (heq ▸ hme) hnt⟩
    · exact hh.reaper q y hy
  · rw [object_set]
    split
    · intro hnn
      cases hnn
    · exact hh.reaped q hq
  · rw [object_set] at hy
    split at hy
    · next heq => exact .inl (heq ▸ ho)
    · exact .inr ⟨y, hy, rfl, rfl, rfl⟩
  · obtain ⟨y, hy, -⟩ := h.system
    rw [object_set]
    split
    · intro hnn
      cases hnn
    · simp [hy]
  · obtain ⟨y, hy, hread⟩ := h.read hc
    rw [object_set]
    split
    · next heq =>
        rw [← heq, hy] at ho
        cases ho
    · exact ⟨y, hy, hread⟩

theorem reap (h : s.Accounted hand) (ho : o ∈ s.reaperList) (hx : s.object o = some x) :
    (obpDeleteObject { s with reaperList := s.reaperList.erase o } o x).Accounted hand := by
  have hz := (h.heap.reaper o x hx).2 ho
  have hrf : o ∉ hand + s.refs := by
    refine Multiset.count_eq_zero.1 (h.heap.counts.count_eq ?_)
    rw [count, hx, ← hz.1]
    rfl
  have hb (q : O) : (obpDeleteObject { s with reaperList := s.reaperList.erase o } o x).object q
      = if q = o then none else s.object q := object_obpDeleteObject _ _ _ _
  have hsm := sameHolders_obpDeleteObject { s with reaperList := s.reaperList.erase o } o x
  refine h.change (h.heap.delete hrf ?_ hb ?_ ?_)
    ⟨hsm.system, hsm.handles, hsm.threads, hsm.calls⟩ (fun q y hy => ?_) ?_
    fun q r hc => ?_
  · rw [reaperList_obpDeleteObject]
    exact h.heap.nodup.not_mem_erase
  · intro q hq
    rw [reaperList_obpDeleteObject]
    exact mem_erase_of_ne hq
  · rw [reaperList_obpDeleteObject]
    exact h.heap.nodup.erase o
  · rw [hb] at hy
    split at hy
    · cases hy
    · exact .inr ⟨y, hy, rfl, rfl, rfl⟩
  · obtain ⟨y, hy, -, hp⟩ := h.system
    rw [hb]
    split
    · next heq =>
        cases hy.symm.trans (heq ▸ hx)
        rw [hz.2] at hp
        cases hp
    · simp [hy]
  · obtain ⟨y, hy, hread⟩ := h.read hc
    rw [hb]
    split
    · next heq =>
        cases hy.symm.trans (heq ▸ hx)
        exact absurd hz.1 hread
    · exact ⟨y, hy, hread⟩

/-! ## Handles, threads and calls -/

theorem move (h : s.Accounted hand) (hb : s'.object = s.object)
    (hp : s'.reaperList = s.reaperList) (hy : s'.systemProcess = s.systemProcess)
    (hrf : hand' + s'.refs = hand + s.refs) (hst : (s'.threadList.map Prod.fst).Nodup)
    (hh : ∀ e ∈ s'.threadList, e ∈ s.threadList ∨ s.ThreadOf e.1 e.2 ∧ s.IsProcess e.2)
    (hcl : ∀ c ∈ s'.calls, c ∈ s.calls ∨ s.CallOk c) : s'.Accounted hand' where
  heap := hrf ▸ h.heap.of_eq hb hp
  started := hst
  threads := fun e he => by
    have hok := (hh e he).elim (h.threads e) id
    simp only [ThreadOf, IsProcess, hb]
    exact hok
  calls := fun c hc => by
    have hok := (hcl c hc).elim (h.calls c) id
    cases c <;> simp only [CallOk, ThreadOf, IsProcess, hb] at hok ⊢ <;> exact hok
  system := by
    rw [hb, hy]
    exact h.system

theorem enter (h : s.Accounted (hand + ↑call.references)) (hok : s.CallOk call) :
    (s.enter call).Accounted hand := by
  refine h.move rfl rfl rfl ?_ h.started (fun e he => .inl he) fun c hc => ?_
  · rw [refs_enter, add_assoc]
  · obtain rfl | hold := mem_cons.1 hc
    · exact .inr hok
    · exact .inl hold

theorem leave (h : s.Accounted hand) (hcl : call ∈ s.calls) :
    Accounted { s with calls := s.calls.erase call } (hand + ↑call.references) := by
  refine h.move rfl rfl rfl ?_ h.started (fun e he => .inl he) fun c hc => .inl (mem_of_mem_erase hc)
  rw [refs_leave hcl, add_assoc]

theorem insert (h : s.Accounted (o ::ₘ hand)) (handle : Handle O) :
    Accounted { s with handles := (handle, o) :: s.handles } hand := by
  refine h.move rfl rfl rfl ?_ h.started (fun e he => .inl he) fun c hc => .inl hc
  rw [refs_insert, Multiset.cons_add, Multiset.add_cons]

theorem remove (h : s.Accounted hand) {e : Handle O × O} (he : e ∈ s.handles) :
    Accounted { s with handles := s.handles.erase e } (e.2 ::ₘ hand) := by
  refine h.move rfl rfl rfl ?_ h.started (fun e he => .inl he) fun c hc => .inl hc
  rw [refs_close he, Multiset.cons_add, Multiset.add_cons]

theorem start (h : s.Accounted (o ::ₘ p ::ₘ hand)) (ho : s.ThreadOf o p) (hp : s.IsProcess p)
    (hw : o ∉ s.threadList.map Prod.fst) :
    Accounted { s with threadList := (o, p) :: s.threadList } hand := by
  refine h.move rfl rfl rfl ?_ (nodup_cons.2 ⟨hw, h.started⟩) (fun e he => ?_) fun c hc => .inl hc
  · rw [refs_thread, Multiset.cons_add, Multiset.cons_add, Multiset.add_cons, Multiset.add_cons]
  · obtain rfl | hold := mem_cons.1 he
    · exact .inr ⟨ho, hp⟩
    · exact .inl hold

theorem stop (h : s.Accounted hand) {e : O × O} (he : e ∈ s.threadList) :
    Accounted { s with threadList := s.threadList.erase e } (e.1 ::ₘ e.2 ::ₘ hand) := by
  refine h.move rfl rfl rfl ?_ ?_ (fun e he => .inl (mem_of_mem_erase he)) fun c hc => .inl hc
  · rw [refs_exit he, Multiset.cons_add, Multiset.cons_add, Multiset.add_cons, Multiset.add_cons]
  · exact h.started.sublist (erase_sublist.map _)

/-- `ObClose`, of a handle whose object has still to be read only if it has other references. -/
theorem close (h : s.Accounted hand) {handle : Handle O}
    (hc : ∀ e p, s.entry handle = some e → .cleaned e.2 p ∈ s.calls → s.count e.2 ≠ some 1)
    (hs : s.obClose handle = some s') : s'.Accounted hand := by
  rw [obClose] at hs
  split at hs
  · cases hs
    exact h
  · next e he =>
      exact (h.remove (mem_of_find?_eq_some he)).dereference (fun p => hc e p he) hs

theorem insertObject (h : s.Accounted hand) (ho : o ∈ hand + s.refs) {handle : Option (Handle O)}
    (hs : s.obInsertObject o handle = some s') : s'.Accounted hand := by
  cases handle with
  | some handle =>
    simp only [obInsertObject] at hs
    split at hs
    · obtain ⟨s₁, hs₁, rfl⟩ := map_eq_some_iff.1 hs
      exact (h.reference (.inl ho) hs₁).insert handle
    · cases hs
  | none =>
    simp only [obInsertObject] at hs
    obtain ⟨s₁, hs₁, hs⟩ := bind_eq_some_iff.1 hs
    refine (h.reference (.inl ho) hs₁).dereference (fun p _ => ?_) hs
    obtain ⟨x, hx, hcount, -⟩ := h.heap.live ho
    obtain ⟨rfl, -⟩ := reference_spec h.heap hx (.inl hcount) hs₁
    rw [count, object_set, if_pos rfl]
    simpa using hcount

theorem keeps_reference (hs : s.obReferenceObjectByPointer o = some s') :
    Keeps s s' ∧ s'.threadList = s.threadList ∧ ∀ q, s.object q ≠ none → s'.object q ≠ none := by
  obtain ⟨x, hx, rfl⟩ := map_eq_some_iff.1 hs
  refine ⟨keeps_set hx rfl rfl rfl, rfl, fun q hq => ?_⟩
  rw [object_set]
  split
  · exact nofun
  · exact hq

theorem startThread (h : s.Accounted hand) (ho : s.object o = none)
    (hp : p ∈ hand + s.refs ∨ p = s.systemProcess) (hpr : s.IsProcess p)
    (hs : (s.obCreateThread o).pspInitializeThread o p = some s') : s'.Accounted (o ::ₘ hand) := by
  obtain ⟨x, hx, hs⟩ := bind_eq_some_iff.1 hs
  cases (update_self _ _ s.object).symm.trans hx
  obtain ⟨s₂, hs₂, hs⟩ := bind_eq_some_iff.1 hs
  obtain ⟨s₃, hs₃, rfl⟩ := map_eq_some_iff.1 hs
  have hse : (s.obCreateThread o).set o (some ⟨1, false, .thread (some p) true false⟩)
      = s.set o (some ⟨1, false, .thread (some p) true false⟩) := by
    simp only [obCreateThread, set, update_idem]
  rw [hse] at hs₂
  have h₁ := h.create ho (x := ⟨1, false, .thread (some p) true false⟩) Nat.one_ne_zero
  rw [Multiset.replicate_one, Multiset.singleton_add] at h₁
  have h₂ := h₁.reference (o := p) (hp.imp_left fun hme => by
    rw [Multiset.cons_add]
    exact Multiset.mem_cons_of_mem hme) hs₂
  have h₃ := h₂.reference (o := o) (.inl (by simp)) hs₃
  obtain ⟨hkp₂, hls₂, hst₂⟩ := keeps_reference hs₂
  obtain ⟨hkp₃, hls₃, hst₃⟩ := keeps_reference hs₃
  have hh : (s.set o (some ⟨1, false, .thread (some p) true false⟩)).ThreadOf o p :=
    ⟨_, update_self _ _ s.object, rfl, rfl⟩
  have hpr₁ : (s.set o (some ⟨1, false, .thread (some p) true false⟩)).IsProcess p := by
    obtain ⟨y, hy, hty⟩ := hpr
    refine ⟨y, ?_, hty⟩
    rw [object_set, if_neg]
    · exact hy
    · rintro rfl
      rw [ho] at hy
      cases hy
  have hne {q : O} (hq : (s.set o (some ⟨1, false, .thread (some p) true false⟩)).object q ≠ none) :
      s₃.object q ≠ none := hst₃ q (hst₂ q hq)
  have hkp := hkp₂.trans hkp₃ fun q hq => by
    by_contra hsm
    exact hst₂ q hsm hq
  obtain ⟨y, hy, -⟩ := id hpr₁
  refine h₃.start (hh.keeps hkp (hne ?_)) (hpr₁.keeps hkp (hne ?_)) ?_
  · simp [object_set]
  · simp [hy]
  · rw [hls₃, hls₂]
    intro hme
    obtain ⟨e, he, rfl⟩ := List.mem_map.1 hme
    have hcount : s.count e.1 = none := by rw [count, ho]; rfl
    exact h.heap.counts.notMem hcount (Multiset.mem_add.2 (.inr (mem_refs_of_thread he).1))

end Accounted

end Threads

end Boron.Ps
