import Boron.Ex.ObjectServices
import Boron.Ob.Creation
import Boron.Ob.PathRight

/-! # The resources of the object services

A service is balanced when it leaves the thread's mode, the name buffers and the parents' reference
counts as they were, with one handle more if it succeeds and nothing more if it fails. Whatever a
service does with references comes down to a multiset of references that it leaves behind; the two
theorems at the end say for which calls nothing in it counts. -/

namespace Boron.Ex.Services

open Boron.Ob Function Option

variable {O : Type} [DecidableEq O]

/-! ## Balance -/

/-- The object that the root directory's handle stands for. -/
def rootObject (s : Services O) (attributes : Option ObjectAttributes) : Option O :=
  attributes.bind fun a => a.rootDirectory.bind s.handles

/-- The objects that are a call's parents: the directories, and what it names as its root. -/
def Parent (s : Services O) (attributes : Option ObjectAttributes) (p : O) : Prop :=
  (s.ns.directory p).isSome = true ∨ s.rootObject attributes = some p

/-- One new handle, with its reference on the object, and no change to the parents' counts but for
a new child. -/
def Gained (s : Services O) (attributes : Option ObjectAttributes) (s' : Services O) : Prop :=
  ∃ handle o, s.handles handle = none ∧ s'.handles = update s.handles handle (some o) ∧
    s'.ns.references o = s.ns.references o + 1 ∧
    ∀ p, s.Parent attributes p → p ≠ o →
      s'.ns.references p + (s.ns.children p).length
        = s.ns.references p + (s'.ns.children p).length

/-- No new object, entry or handle, and no change to the parents' counts. -/
def Unchanged (s : Services O) (attributes : Option ObjectAttributes) (s' : Services O) : Prop :=
  s'.handles = s.handles ∧ (∀ p, (s'.ns.object p).isSome = (s.ns.object p).isSome) ∧
    (∀ p, s'.ns.children p = s.ns.children p) ∧
    ∀ p, s.Parent attributes p → s'.ns.references p = s.ns.references p

/-- The services after a call that has returned what it should. -/
def Balanced (s : Services O) (attributes : Option ObjectAttributes) (result : Except ObStatus Unit)
    (s' : Services O) : Prop :=
  s'.mode = s.mode ∧ s'.allocated + s.freed = s'.freed + s.allocated ∧
    match result with
    | .ok () => s.Gained attributes s'
    | .error _ => s.Unchanged attributes s'

/-- What the rest of the system promises: the objects are well formed, a handle keeps its object
alive, and the objects that `Parse` methods create are no directories. -/
structure Promised (m : ObManager O) (s : Services O) : Prop where
  wellFormed : m.WellFormed s.ns
  root : (s.ns.directory m.rootDirectory).isSome = true
  handles : ∀ handle o, s.handles handle = some o → s.ns.Alive o
  created : ∀ o, (m.created o).type ≠ .directory

/-! ## References left behind -/

section

variable {m : ObManager O} {s : Services O} {attributes : Option ObjectAttributes}
  {refs : Multiset O} {p : O}

omit [DecidableEq O] in
theorem Promised.object_of_parent (h : s.Promised m) (hp : s.Parent attributes p) :
    ∃ x, s.ns.object p = some x := by
  rcases hp with hdr | hrt
  · unfold Namespace.directory at hdr
    cases hx : s.ns.object p with
    | none => rw [hx] at hdr; cases hdr
    | some x => exact ⟨x, rfl⟩
  · unfold rootObject at hrt
    obtain ⟨a, -, ha⟩ := bind_eq_some_iff.1 hrt
    obtain ⟨handle, -, hh⟩ := bind_eq_some_iff.1 ha
    obtain ⟨x, hx, -⟩ := h.handles handle p hh
    exact ⟨x, hx⟩

theorem children_withRefs {x : Object O} (hx : s.ns.object p = some x) :
    (m.withRefs s.ns refs).children p = s.ns.children p := by
  unfold Namespace.children Namespace.directory
  rw [ObManager.object_withRefs_of_some hx, hx]
  rfl

/-- References to objects that are there leave the objects there and their lists alone. -/
theorem object_withRefs_isSome_iff :
    (∀ p, ((m.withRefs s.ns refs).object p).isSome = (s.ns.object p).isSome) ↔
      ∀ p ∈ refs, s.ns.object p ≠ none := by
  constructor
  · intro h p hp hnn
    obtain ⟨x, hx, -⟩ := ObManager.object_withRefs_of_mem m s.ns hp
    have := h p
    rw [hx, hnn] at this
    cases this
  · intro h p
    cases hx : s.ns.object p with
    | none =>
      have hp : p ∉ refs := fun hp => h p hp hx
      rw [ObManager.object_withRefs_of_none hx, if_pos (Multiset.count_eq_zero.2 hp)]
    | some x => rw [ObManager.object_withRefs_of_some hx]; rfl

/-- A failed call that leaves only references behind. -/
theorem unchanged_withRefs_iff (attributes : Option ObjectAttributes) (s' : Services O) (hns : s'.ns = m.withRefs s.ns refs)
    (hh : s'.handles = s.handles) :
    s.Unchanged attributes s' ↔
      (∀ p ∈ refs, s.ns.object p ≠ none) ∧ ∀ p ∈ refs, ¬ s.Parent attributes p := by
  unfold Unchanged
  rw [hns, object_withRefs_isSome_iff]
  simp only [ObManager.references_withRefs, Nat.add_eq_left, Multiset.count_eq_zero, hh, true_and]
  constructor
  · rintro ⟨hold, -, hpn⟩
    exact ⟨hold, fun p hp hpr => hpn p hpr hp⟩
  · rintro ⟨hold, hpn⟩
    refine ⟨hold, fun p => ?_, fun p hpr hp => hpn p hp hpr⟩
    cases hx : s.ns.object p with
    | none =>
      have hp : p ∉ refs := fun hp => hold p hp hx
      unfold Namespace.children Namespace.directory
      rw [ObManager.object_withRefs_of_none hx, if_pos (Multiset.count_eq_zero.2 hp), hx]
    | some x => exact children_withRefs hx

omit [DecidableEq O] in
theorem newHandle_unique {f : Nat → Option O} {handle handle' : Nat} {o o' : O} (hfr : f handle' = none)
    (h : update f handle (some o) = update f handle' (some o')) : o = o' := by
  have ha := congrFun h handle'
  rw [update_self, update_apply] at ha
  split at ha
  · exact some.inj ha
  · rw [hfr] at ha
    cases ha

/-- A call that has created an object and leaves some references behind. -/
theorem gained_adds_iff (h : s.Promised m) (attributes : Option ObjectAttributes)
    (s' : Services O) {o : O} {dir : Option O}
    (hfr : s.ns.object o = none) (ha : Namespace.Adds (m.withRefs s.ns refs) s'.ns o dir)
    {handle : Nat} (hhd : s.handles handle = none)
    (hh : s'.handles = update s.handles handle (some o)) :
    s.Gained attributes s' ↔ ∀ p ∈ refs, ¬ s.Parent attributes p := by
  have hpr : ∀ p, s.Parent attributes p → p ≠ o := by
    rintro p hp rfl
    obtain ⟨x, hx⟩ := h.object_of_parent hp
    rw [hfr] at hx
    cases hx
  have hcount : ∀ p, s.Parent attributes p → (s'.ns.references p + (s.ns.children p).length
        = s.ns.references p + (s'.ns.children p).length ↔ p ∉ refs) := by
    intro p hp
    obtain ⟨x, hx⟩ := h.object_of_parent hp
    rw [ha.references p (hpr p hp), ha.children p (hpr p hp), children_withRefs hx,
      ObManager.references_withRefs, ← Multiset.count_eq_zero, List.length_append]
    split
    · simp only [List.length_singleton]
      omega
    · simp only [List.length_nil]
      omega
  constructor
  · rintro ⟨handle', o', hhd', hh', -, hpn⟩ p hp hpp
    obtain rfl := newHandle_unique hhd' (hh.symm.trans hh')
    exact (hcount p hpp).1 (hpn p hpp (hpr p hpp)) hp
  · intro hrf
    obtain ⟨x, hx, hon, -⟩ := ha.object
    refine ⟨handle, o, hhd, hh, ?_, fun p hpp _ => (hcount p hpp).2 fun hp => hrf p hp hpp⟩
    unfold Namespace.references
    rw [hx, hfr, map_some, hon]
    rfl

/-- A call that has opened an object and leaves some references behind. -/
theorem gained_withRefs_iff (h : s.Promised m) (attributes : Option ObjectAttributes)
    (s' : Services O) {o : O} (hns : s'.ns = m.withRefs s.ns ({o} + refs)) {handle : Nat} (hhd : s.handles handle = none)
    (hh : s'.handles = update s.handles handle (some o)) :
    s.Gained attributes s' ↔ o ∉ refs ∧ ∀ p ∈ refs, ¬ s.Parent attributes p := by
  have ho : s'.ns.references o = s.ns.references o + 1 ↔ o ∉ refs := by
    rw [hns, ObManager.references_withRefs, Multiset.singleton_add, Multiset.count_cons_self,
      ← Multiset.count_eq_zero]
    omega
  have hcount : ∀ p, s.Parent attributes p → p ≠ o → (s'.ns.references p + (s.ns.children p).length
        = s.ns.references p + (s'.ns.children p).length ↔ p ∉ refs) := by
    intro p hp hne
    obtain ⟨x, hx⟩ := h.object_of_parent hp
    rw [hns, children_withRefs hx, ObManager.references_withRefs, Multiset.singleton_add,
      Multiset.count_cons_of_ne hne, ← Multiset.count_eq_zero]
    omega
  constructor
  · rintro ⟨handle', o', hhd', hh', hon, hpr⟩
    obtain rfl := newHandle_unique hhd' (hh.symm.trans hh')
    have hnt := ho.1 hon
    refine ⟨hnt, fun p hp hpp => ?_⟩
    have hne : p ≠ o := by
      rintro rfl
      exact hnt hp
    exact (hcount p hpp hne).1 (hpr p hpp hne) hp
  · rintro ⟨hnt, hrf⟩
    exact ⟨handle, o, hhd, hh, ho.2 hnt, fun p hpp hne => (hcount p hpp hne).2 fun hp => hrf p hp hpp⟩

end

/-! ## Attributes and buffers -/

section

omit [DecidableEq O] in
theorem exDuplicateUserString_spec (s : Services O) (str : Name) (len : Nat) (cop : Copying) :
    (∃ st alc freed, s.exDuplicateUserString str len cop
        = (.error st, { s with allocated := alc, freed := freed }) ∧
      alc + s.freed = freed + s.allocated) ∨
    ∃ name, s.exDuplicateUserString str len cop
      = (.ok name, { s with allocated := s.allocated + 1 }) := by
  unfold exDuplicateUserString
  split
  · exact .inl ⟨_, s.allocated, s.freed, rfl, Nat.add_comm ..⟩
  · split
    · exact .inl ⟨_, s.allocated, s.freed, rfl, Nat.add_comm ..⟩
    · split
      · exact .inl ⟨_, s.allocated, s.freed, rfl, Nat.add_comm ..⟩
      · split
        · exact .inl ⟨_, s.allocated + 1, s.freed + 1, rfl, by omega⟩
        · exact .inr ⟨_, rfl⟩

omit [DecidableEq O] in
/-- Taking the attributes changes nothing but the count of buffers; if it succeeds, the copied name
is in one that `dispose` frees. -/
theorem takeAttributes_spec (s : Services O) (attributes : ObjectAttributes) (co : Copying) :
    (∃ st alc freed, s.takeAttributes attributes co
        = (.error st, { s with allocated := alc, freed := freed }) ∧
      alc + s.freed = freed + s.allocated) ∨
    ∃ cop, s.takeAttributes attributes co = (.ok cop, { s with allocated := s.allocated +
            if s.mode = .user ∧ cop.objectName.isSome = true then 1 else 0 }) ∧
      cop.rootDirectory = attributes.rootDirectory := by
  unfold takeAttributes
  by_cases hmd : s.mode = .user
  · rw [if_pos hmd]
    unfold exCopySafeObjectAttributes
    by_cases hc : co.attributes ≠ .success
    · rw [if_pos hc]
      exact .inl ⟨_, s.allocated, s.freed, rfl, Nat.add_comm ..⟩
    · rw [if_neg hc]
      cases hnm : attributes.objectName with
      | none => exact .inr ⟨attributes, by simp [hnm], rfl⟩
      | some name =>
        dsimp only
        by_cases hlength : attributes.objectNameLength = 0
        · rw [if_pos hlength]
          exact .inr ⟨{ attributes with objectName := none }, by simp, rfl⟩
        · rw [if_neg hlength]
          obtain ⟨st, alc, freed, heq, hcount⟩ | ⟨name', heq⟩ :=
            exDuplicateUserString_spec s name attributes.objectNameLength co
          · rw [heq]
            exact .inl ⟨st, alc, freed, rfl, hcount⟩
          · rw [heq]
            exact .inr ⟨{ attributes with objectName := some name' }, by simp [hmd], rfl⟩
  · rw [if_neg hmd]
    exact .inr ⟨attributes, by simp [hmd], rfl⟩

omit [DecidableEq O] in
theorem dispose_eq (s : Services O) (copyAttrs : Bool) (attributes : ObjectAttributes) :
    s.dispose copyAttrs attributes = { s with freed := s.freed +
      if copyAttrs = true ∧ attributes.objectName.isSome = true then 1 else 0 } := by
  unfold dispose exDisposeCopiedObjectAttributes
  cases copyAttrs with
  | false => simp
  | true => cases attributes.objectName <;> simp

end

/-! ## Creating -/

section

/-- The reference on the parent directory. -/
def parentRefs : Option O → Multiset O
  | none => 0
  | some d => {d}

variable {m : ObManager O} {ns N : Namespace O} {t : Services O} {c : CreateCall O}
  {parent dir : Option O} {copyAttrs : Bool} {attributes : ObjectAttributes} {extra : Multiset O}

theorem createFail_spec (hp : ∀ d ∈ parent, ns.Alive d)
    (ht : t.ns = m.withRefs ns (parentRefs parent + extra)) (st : ObStatus) :
    t.createFail parent copyAttrs attributes st
      = some (.error st, { t with ns := m.withRefs ns extra }.dispose copyAttrs attributes) := by
  cases parent with
  | none =>
    simp only [createFail, parentRefs, zero_add] at ht ⊢
    rw [← ht]
  | some d =>
    have hd : m.Findable ns d := .inl (hp d rfl)
    simp only [createFail, parentRefs, Multiset.singleton_add] at ht ⊢
    rw [ht, ObManager.dereference_withRefs hd, map_some]

/-- The reference on the parent directory is not its last one. -/
theorem parent_stays (m : ObManager O) (extra : Multiset O) (hp : ∀ d ∈ parent, ns.Alive d)
    {d : O} (hd : d ∈ parent) :
    ∃ y, (m.withRefs ns (parentRefs parent + extra)).object d = some y ∧
      (1 < y.pointerCount ∨ 0 < y.pointerCount ∧ y.permanent = true) := by
  obtain ⟨y, hy, hst⟩ := hp d hd
  have hme : d ∈ parentRefs parent + extra := by
    rw [mem_def] at hd
    subst hd
    simp [parentRefs]
  have hpos : 0 < (parentRefs parent + extra).count d := Multiset.count_pos.2 hme
  refine ⟨_, ObManager.object_withRefs_of_some hy, ?_⟩
  dsimp only
  rcases hst with h | h
  · exact .inl (by omega)
  · exact .inr ⟨by omega, h⟩

omit [DecidableEq O] in
theorem ne_of_mem_parent (hp : ∀ d ∈ parent, ns.Alive d) {o d : O}
    (hfr : ns.object o = none) (hd : d ∈ parent) : d ≠ o := by
  rintro rfl
  obtain ⟨x, hx, -⟩ := hp _ hd
  rw [hfr] at hx
  cases hx

theorem createFail_keeps (copyAttrs : Bool) (attributes : ObjectAttributes) (hp : ∀ d ∈ parent, ns.Alive d) {o : O} (hfr : ns.object o = none)
    (hsm : (t.ns.object o).isSome = true)
    (hkp : ∀ d ∈ parent, ∃ y, t.ns.object d = some y ∧
      (1 < y.pointerCount ∨ 0 < y.pointerCount ∧ y.permanent = true)) (st : ObStatus) :
    ∃ t', t.createFail parent copyAttrs attributes st = some (.error st, t') ∧
      (t'.ns.object o).isSome = true := by
  cases parent with
  | none => exact ⟨_, rfl, by rw [dispose_eq]; exact hsm⟩
  | some d =>
    obtain ⟨y, hy, hst⟩ := hkp d rfl
    have hne : o ≠ d := (ne_of_mem_parent hp hfr rfl).symm
    simp only [createFail]
    rw [Namespace.dereference_of_stays hy hst, map_some]
    refine ⟨_, rfl, ?_⟩
    rw [dispose_eq]
    rw [Namespace.object_set_of_ne _ hne]
    exact hsm

theorem createFailUndo_spec {o : O} (ha : Namespace.Adds N t.ns o dir)
    (hp : ∀ d ∈ parent, ns.Alive d) (hN : N = m.withRefs ns (parentRefs parent + extra))
    (st : ObStatus) :
    t.createFailUndo o parent copyAttrs attributes st
      = some (.error st, { t with ns := m.withRefs ns extra }.dispose copyAttrs attributes) := by
  obtain ⟨unl, ns₁, hu, hdrop⟩ := ha.undo
  unfold createFailUndo
  rw [hu, bind_some]
  dsimp only
  rw [hdrop, bind_some]
  rw [createFail_spec (t := { t with ns := N }) hp hN]

/-- The three ways in which a call ends that has created its object. -/
theorem createInsert_spec (copyAttrs : Bool) (attributes : ObjectAttributes) (ha : Namespace.Adds N t.ns c.object dir)
    (hfr : ns.object c.object = none) (hp : ∀ d ∈ parent, ns.Alive d)
    (hN : N = m.withRefs ns (parentRefs parent + extra))
    (hh : ∀ handle, c.handle = .ok handle → t.handles handle = none) :
    (c.createMethod ≠ .success ∧ ∃ st t', t.createInsert c parent copyAttrs attributes
        = some (.error st, t') ∧ (t'.ns.object c.object).isSome = true) ∨
    (c.createMethod = .success ∧ (∀ handle, c.handle = .ok handle → c.copyOut ≠ .success) ∧
      ∃ st, t.createInsert c parent copyAttrs attributes = some (.error st,
            { t with ns := m.withRefs ns extra }.dispose copyAttrs attributes)) ∨
    (c.createMethod = .success ∧ c.copyOut = .success ∧ ∃ handle, c.handle = .ok handle ∧
      t.createInsert c parent copyAttrs attributes
        = some (.ok (), { t with handles := update t.handles handle (some c.object) })) := by
  obtain ⟨x, hx, hon, -⟩ := ha.object
  have hrs : (t.ns.obReferenceObjectByPointer c.object).obDereferenceObject c.object false
      = some t.ns := Namespace.reference_dereference hx (by omega)
  unfold createInsert
  by_cases hmt : c.createMethod = .success
  · rw [if_neg (fun h => h hmt)]
    cases hre : c.handle with
    | error st =>
      refine .inr (.inl ⟨hmt, nofun, st, ?_⟩)
      simp only [obInsertObject, hrs, map_some, bind_some]
      exact createFailUndo_spec ha hp hN st
    | ok handle =>
      by_cases hc : c.copyOut = .success
      · refine .inr (.inr ⟨hmt, hc, handle, rfl, ?_⟩)
        simp only [obInsertObject, bind_some, if_pos hc, hrs, map_some]
      · refine .inr (.inl ⟨hmt, fun _ _ => hc, c.copyOut, ?_⟩)
        have hcl : update (update t.handles handle (some c.object)) handle none = t.handles := by
          rw [update_idem, ← hh handle hre, update_eq_self]
        simp only [obInsertObject, bind_some, if_neg hc, obClose, update_self, hrs, map_some, hcl]
        exact createFailUndo_spec ha hp hN c.copyOut
  · rw [if_pos hmt]
    refine .inl ⟨hmt, c.createMethod,
      createFail_keeps copyAttrs attributes hp hfr (by rw [hx]; rfl) ?_ _⟩
    intro d hd
    obtain ⟨y, hy, hst⟩ := parent_stays m extra hp hd
    rw [← hN] at hy
    obtain ⟨z, hz, hcount, hpn⟩ :=
      ha.keeps d y (ne_of_mem_parent hp hfr hd) hy
    refine ⟨z, hz, ?_⟩
    rcases hst with h | ⟨h, hpr⟩
    · exact .inl (by omega)
    · exact .inr ⟨by omega, hpn.trans hpr⟩

/-- The references do not count: they are to objects that are there, and no parents. -/
def Quiet (s : Services O) (A : Option ObjectAttributes) (refs : Multiset O) : Prop :=
  (∀ p ∈ refs, s.ns.object p ≠ none) ∧ ∀ p ∈ refs, ¬ s.Parent A p

/-- `t` is `s` with the attributes taken; only the objects may have changed since. -/
structure Started (s t : Services O) (copyAttrs : Bool) (attributes : ObjectAttributes) : Prop where
  handles : t.handles = s.handles
  mode : t.mode = s.mode
  allocated : t.allocated = s.allocated +
    if copyAttrs = true ∧ attributes.objectName.isSome = true then 1 else 0
  freed : t.freed = s.freed

variable {s : Services O} {A : Option ObjectAttributes}

omit [DecidableEq O] in
theorem quiet_zero : s.Quiet A 0 := by simp [Quiet]

omit [DecidableEq O] in
/-- Copied attributes name the same root. -/
theorem started_copied (s : Services O) {given copied : ObjectAttributes}
    (h : copied.rootDirectory = given.rootDirectory) :
    s.Started { s with allocated := s.allocated +
        if s.mode = .user ∧ copied.objectName.isSome = true then 1 else 0 }
      (decide (s.mode = .user)) copied ∧
      s.rootObject (some given) = copied.rootDirectory.bind s.handles :=
  ⟨⟨rfl, rfl, by simp, rfl⟩, by rw [h]; rfl⟩

theorem balanced_fail_iff (ht : s.Started t copyAttrs attributes) (st : ObStatus) :
    s.Balanced A (.error st) ({ t with ns := m.withRefs s.ns extra }.dispose copyAttrs attributes) ↔
      s.Quiet A extra := by
  have hu := unchanged_withRefs_iff (s := s) (m := m) A
    ({ t with ns := m.withRefs s.ns extra }.dispose copyAttrs attributes)
    (by rw [dispose_eq]) (by rw [dispose_eq]; exact ht.handles)
  unfold Balanced
  rw [hu, dispose_eq]
  refine ⟨fun h => h.2.2, fun h => ⟨ht.mode, ?_, h⟩⟩
  dsimp only
  have := ht.allocated
  have := ht.freed
  omega

omit [DecidableEq O] in
theorem not_balanced_of_new {o : O} (hfr : s.ns.object o = none)
    (hso : (t.ns.object o).isSome = true) (st : ObStatus) :
    ¬ s.Balanced A (.error st) t := by
  rintro ⟨-, -, -, hsm, -⟩
  have := hsm o
  rw [hfr, hso] at this
  cases this

omit [DecidableEq O] in
/-- A call that succeeds leaves its copied name. -/
theorem Started.buffers_iff (ht : s.Started t copyAttrs attributes) :
    t.allocated + s.freed = t.freed + s.allocated ↔
      ¬ (copyAttrs = true ∧ attributes.objectName.isSome = true) := by
  rw [ht.allocated, ht.freed]
  split
  · next hc => exact ⟨fun h => by omega, fun h => absurd hc h⟩
  · next hc => exact ⟨fun _ => hc, fun _ => by omega⟩

theorem balanced_created_iff (h : s.Promised m) (ht : s.Started t copyAttrs attributes)
    {refs : Multiset O} {o : O} (hfr : s.ns.object o = none)
    (ha : Namespace.Adds (m.withRefs s.ns refs) t.ns o dir) {handle : Nat}
    (hh : s.handles handle = none) :
    s.Balanced A (.ok ()) { t with handles := update t.handles handle (some o) } ↔
      ¬ (copyAttrs = true ∧ attributes.objectName.isSome = true) ∧ ∀ p ∈ refs, ¬ s.Parent A p := by
  have hgn := gained_adds_iff h A { t with handles := update t.handles handle (some o) } hfr ha hh
    (by dsimp only; rw [ht.handles])
  unfold Balanced
  rw [hgn, ht.buffers_iff]
  exact ⟨fun h => h.2, fun h => ⟨ht.mode, h⟩⟩

theorem balanced_opened_iff (h : s.Promised m) (ht : s.Started t copyAttrs attributes) {o : O}
    (hns : t.ns = m.withRefs s.ns ({o} + extra)) {handle : Nat}
    (hh : s.handles handle = none) :
    s.Balanced A (.ok ()) { t with handles := update t.handles handle (some o) } ↔
      ¬ (copyAttrs = true ∧ attributes.objectName.isSome = true) ∧
        o ∉ extra ∧ ∀ p ∈ extra, ¬ s.Parent A p := by
  have hgn := gained_withRefs_iff h A { t with handles := update t.handles handle (some o) } hns hh
    (by dsimp only; rw [ht.handles])
  unfold Balanced
  rw [hgn, ht.buffers_iff]
  exact ⟨fun h => h.2, fun h => ⟨ht.mode, h⟩⟩

omit [DecidableEq O] in
theorem Promised.not_mem_children (h : s.Promised m) {o d : O} (hfr : s.ns.object o = none)
    (hdr : (s.ns.directory d).isSome = true) : o ∉ s.ns.children d := by
  obtain ⟨⟨children, count⟩, hd⟩ := isSome_iff_exists.1 hdr
  have hc : s.ns.children d = children := by simp [Namespace.children, hd]
  rw [hc]
  intro hme
  obtain ⟨x, hx, -⟩ := h.wellFormed.children d children count (ObManager.body_of_directory hd) o hme
  rw [hfr] at hx
  cases hx

/-- The object can be linked where it should go. -/
def Linkable (ns : Namespace O) (room : Bool) (target : Option (O × Name)) : Prop :=
  ∀ dir name, target = some (dir, name) →
    room = true ∧ ∀ c ∈ ns.children dir, ns.objectName c ≠ some name

/-- The call gets its handle to the caller. -/
def Delivers (handle : Except ObStatus Nat) (copyOut : ObStatus) : Prop :=
  (∃ h, handle = .ok h) ∧ copyOut = .success

/-- The rest of a call of `ExCreateObjectUserCall` once it has the references and knows where the new
object goes. -/
def createAt (t : Services O) (c : CreateCall O) (parent : Option O)
    (copyAttrs : Bool) (attributes : ObjectAttributes) (target : Option (O × Name)) :
    Option (Except ObStatus Unit × Services O) :=
  (t.ns.createObject c.object c.type false c.memory .success target c.room).bind fun (status, ns) =>
    t.afterCreate c parent copyAttrs attributes (ofStatus status, ns)

theorem createAt_balanced_iff (A : Option ObjectAttributes) (extra : Multiset O)
    (h : s.Promised m) (ht : s.Started t copyAttrs attributes)
    (hns : t.ns = m.withRefs s.ns (parentRefs parent + extra))
    (hfr : s.ns.object c.object = none) (het : c.object ∉ extra)
    (hp : ∀ d ∈ parent, s.ns.Alive d)
    (hh : ∀ handle, c.handle = .ok handle → s.handles handle = none)
    {target : Option (O × Name)}
    (htr : ∀ dir name, target = some (dir, name) → s.ns.Alive dir ∧
      (s.ns.directory dir).isSome = true) :
    ∃ result s', t.createAt c parent copyAttrs attributes target = some (result, s') ∧
      (s.Balanced A result s' ↔ (c.memory = false → s.Quiet A extra) ∧
        (c.memory = true → Linkable s.ns c.room target ∧ c.createMethod = .success ∧
          (Delivers c.handle c.copyOut → ¬ (copyAttrs = true ∧ attributes.objectName.isSome = true) ∧
              ∀ p ∈ parentRefs parent + extra, ¬ s.Parent A p) ∧
          (¬ Delivers c.handle c.copyOut → s.Quiet A extra))) := by
  have hfrN : t.ns.object c.object = none := by
    have hcount : (parentRefs parent + extra).count c.object = 0 := by
      rw [Multiset.count_eq_zero, Multiset.mem_add, not_or]
      refine ⟨fun hme => ?_, het⟩
      cases parent with
      | none => simp [parentRefs] at hme
      | some d =>
        exact ne_of_mem_parent hp hfr rfl (Multiset.mem_singleton.1 hme).symm
    rw [hns, ObManager.object_withRefs_of_none hfr, if_pos hcount]
  have htt : ∀ dir name, target = some (dir, name) → t.ns.Alive dir ∧
      (t.ns.directory dir).isSome = true ∧ c.object ∉ t.ns.children dir := by
    intro dir name heq
    obtain ⟨⟨x, hx, hy⟩, hdr⟩ := htr dir name heq
    have hob : (m.withRefs s.ns (parentRefs parent + extra)).object dir
        = some { x with pointerCount := x.pointerCount + (parentRefs parent + extra).count dir } :=
      ObManager.object_withRefs_of_some hx
    rw [hns, children_withRefs hx]
    refine ⟨⟨_, hob, ?_⟩, ?_, h.not_mem_children hfr hdr⟩
    · rcases hy with hpos | hpr
      · exact .inl (Nat.add_pos_left hpos _)
      · exact .inr hpr
    · unfold Namespace.directory at hdr ⊢
      rw [hob]
      rw [hx] at hdr
      exact hdr
  have hb : Linkable t.ns c.room target ↔ Linkable s.ns c.room target := by
    refine forall_congr' fun dir => forall_congr' fun name => forall_congr' fun heq => ?_
    obtain ⟨⟨x, hx, -⟩, -⟩ := htr dir name heq
    rw [hns, children_withRefs hx]
    simp only [ObManager.objectName_withRefs]
  unfold createAt
  rcases Namespace.createObject_spec hfrN c.type c.memory c.room target htt with
    ⟨hmr, heq⟩ | ⟨hmr, hln, ns', heq, ha⟩ | ⟨hmr, hln, status, x, heq, hst⟩
  · rw [heq, bind_some]
    simp only [ofStatus, afterCreate]
    rw [createFail_spec hp hns]
    exact ⟨_, _, rfl, by rw [balanced_fail_iff ht]; simp [hmr]⟩
  · have ht' : s.Started { t with ns := ns' } copyAttrs attributes :=
      ⟨ht.handles, ht.mode, ht.allocated, ht.freed⟩
    have hh' : ∀ handle, c.handle = .ok handle → t.handles handle = none := by
      intro handle hok
      rw [ht.handles]
      exact hh handle hok
    have hln' : Linkable s.ns c.room target := hb.1 hln
    rw [heq, bind_some]
    simp only [ofStatus, afterCreate]
    rcases createInsert_spec (t := { t with ns := ns' }) copyAttrs attributes ha hfr hp hns
        hh' with
      ⟨hmt, status, t', hrn, hsm⟩ | ⟨hmt, hdl, status, hrn⟩ |
      ⟨hmt, hcp, handle, hok, hrn⟩
    · refine ⟨_, _, hrn, iff_of_false (not_balanced_of_new hfr hsm status) ?_⟩
      exact fun hc => hmt (hc.2 hmr).2.1
    · have hnt : ¬ Delivers c.handle c.copyOut := fun ⟨⟨handle, hok⟩, hcp⟩ => hdl handle hok hcp
      refine ⟨_, _, hrn, ?_⟩
      rw [balanced_fail_iff ht']
      simp [hmr, hln', hmt, hnt]
    · have hdl : Delivers c.handle c.copyOut := ⟨⟨handle, hok⟩, hcp⟩
      refine ⟨_, _, hrn, ?_⟩
      rw [hns] at ha
      rw [balanced_created_iff h ht' hfr ha (hh handle hok)]
      simp [hmr, hln', hmt, hdl]
  · have he : ofStatus status = .error status := by
      cases status with
      | success => exact absurd rfl hst
      | _ => rfl
    rw [heq, bind_some]
    simp only [he, afterCreate]
    have hkp : ∀ d ∈ parent, ∃ y, (t.ns.set c.object (some x)).object d = some y ∧
        (1 < y.pointerCount ∨ 0 < y.pointerCount ∧ y.permanent = true) := by
      intro d hd
      rw [Namespace.object_set_of_ne _ (ne_of_mem_parent hp hfr hd), hns]
      exact parent_stays m extra hp hd
    obtain ⟨t', hrn, hsm⟩ := createFail_keeps (t := { t with ns := t.ns.set c.object (some x) })
      copyAttrs attributes hp hfr (by dsimp only; rw [Namespace.object_set_self]; rfl) hkp
      status
    refine ⟨_, _, hrn, iff_of_false (not_balanced_of_new hfr hsm status) ?_⟩
    intro hc
    obtain ⟨dir, name, htg, hnt⟩ := hln
    exact hnt (hb.2 (hc.2 hmr).1 dir name htg)

end

end Boron.Ex.Services
