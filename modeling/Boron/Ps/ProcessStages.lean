import Boron.Ps.Processes

/-! # The stages of a process creation

What each stage of `ExCreateObjectUserCall` does for a new process: the create method, which gets a
page map, an entry in the process list and a handle table, the delete routine, which gives them back,
and the insertion in the handle table of the caller. -/

namespace Boron.Ps

open Ex Ob Function Option

/-- A handle table made with these parameters. -/
structure MadeWith (least step most : Nat) (t : HandleTable) : Prop extends t.Sound where
  made_initialSize : t.initialSize = least
  made_growBy : t.growBy = step
  made_limit : t.limit = most

section

variable {least step most : Nat} {t t' : HandleTable}

theorem MadeWith.of_ok (h : MadeWith least step most t) (hok : t'.Ok)
    (hkn : t.SameKind t') : MadeWith least step most t' :=
  ⟨h.toSound.of_ok hok hkn, hkn.initialSize.trans h.made_initialSize,
    hkn.growBy.trans h.made_growBy, hkn.limit.trans h.made_limit⟩

theorem MadeWith.fits (h : MadeWith least step most t) (hms : most ≠ 0)
    (hsm : most + step < HandleTable.maxItems) : t.GrowthFits := by
  have hw : HandleTable.maxItems < wordSize := by decide
  have hc := h.limit
  rw [h.made_limit] at hc
  refine ⟨?_, ?_⟩
  · rw [h.made_growBy]
    omega
  · unfold HandleTable.grownSize
    rw [h.made_growBy, h.made_limit]
    split <;> omega

end

/-- A handle table of a process. -/
abbrev ProcessTable : HandleTable → Prop := MadeWith 16 16 2048

/-- The process list. -/
abbrev ListTable : HandleTable → Prop := MadeWith 256 64 1048576

theorem ProcessTable.growthFits {t : HandleTable} (h : ProcessTable t) : t.GrowthFits :=
  h.fits (by decide) (by decide)

theorem ListTable.growthFits {t : HandleTable} (h : ListTable t) : t.GrowthFits :=
  h.fits (by decide) (by decide)

theorem ProcessTable.capacity_pos {t : HandleTable} (h : ProcessTable t) : 0 < t.capacity := by
  have hin := h.initial
  rw [h.made_initialSize] at hin
  omega

theorem placed_handle {t t' : HandleTable} {i x : Nat} (h : t.Placed i x t') :
    indexToHandle i = (i + 1) * 4 ∧ t'.handles (indexToHandle i) = some x := by
  have he : t'.entry i = some x := by rw [h.entry, update_self]
  have hlt := HandleTable.lt_of_entry he
  rw [h.ok.length] at hlt
  have hh := HandleTable.indexToHandle_of_lt (Nat.lt_trans hlt h.ok.size)
  exact ⟨hh, by rw [hh, HandleTable.handles_handle, he]⟩

theorem exDeleteHandle_found {t : HandleTable} (ht : t.Ok) (hst : 0 < t.growBy) {handle x : Nat}
    (hfn : t.handles handle = some x) (room : Bool) :
    ∃ t', t.exDeleteHandle handle (fun _ => true) room = some (t', .success) ∧
      t.Changed (update t.entry (handleToIndex handle) none) t' := by
  have hrt : ∀ p, t.handles handle = some p → (fun _ : Nat => true) p = true →
      handleToIndex handle = t.maxIndex → 0 < t.growBy := fun _ _ _ _ => hst
  obtain ⟨t', st, hdl, hp⟩ := HandleTable.exDeleteHandle_spec ht hrt room
  rw [hfn] at hp
  obtain ⟨rfl, hc, -⟩ := hp
  exact ⟨t', hdl, hc⟩

theorem exGetPointerFromHandle_eq {t : HandleTable} (ht : t.Ok) (handle : Nat) :
    t.exGetPointerFromHandle handle = some ((t.handles handle).elim (.error .invalidHandle) .ok) := by
  unfold HandleTable.exGetPointerFromHandle
  obtain ⟨hb, hnn⟩ | ⟨i, obj, rfl, hi, hgt, hsm⟩ := HandleTable.handles_cases ht handle
  · rw [hnn]
    by_cases hc : (!expCheckHandleCorrectness handle) = true
    · rw [if_pos hc]
      rfl
    · rw [if_neg hc, if_pos (hb.resolve_left hc)]
      rfl
  · rw [if_neg (by simp [HandleTable.correct_handle]), HandleTable.handleToIndex_handle,
      if_neg (by omega), hgt, hsm]
    dsimp only
    by_cases hob : obj = 0
    · rw [if_pos hob, if_pos hob]
      rfl
    · rw [if_neg hob, if_neg hob]
      rfl

namespace ProcessSystem

variable {s t t' : ProcessSystem} {c : CreateProcessCall} {o p : Nat} {u : HandleTable}

/-! ## What a failed call is to leave -/

/-- The list, the handle tables and the references are as before, and what was allocated was freed. -/
structure Undone (s s' : ProcessSystem) : Prop where
  processList : s'.processList.entry = s.processList.entry
  handles : ∀ p, (s'.objects.tables.lookup p).map HandleTable.entry =
    (s.objects.tables.lookup p).map HandleTable.entry
  references : ∀ o, s'.objects.references o = s.objects.references o
  freed : ∃ made : Multiset Resource, made.Nodup ∧ s'.allocated = s.allocated + made ∧
    s'.freed = s.freed + made

abbrev Inherits (c : CreateProcessCall) : Prop :=
  (c.inheritHandles || c.deepCloneHandles) = true

/-- There is memory for the handle table of the new process. -/
def TableRoom (s : ProcessSystem) (parent : Option Nat) (c : CreateProcessCall) : Prop :=
  if Inherits c then ∃ p u, parent = some p ∧ s.objects.tables.lookup p = some u ∧
    u.CanDuplicate c.tableRoom c.mapRoom c.resizeRoom
  else c.tableRoom = true ∧ c.mapRoom = true

/-- The create method gets a page map, a place in the process list and a handle table. -/
def Initializes (s : ProcessSystem) (parent : Option Nat) (c : CreateProcessCall) : Prop :=
  c.pageMap ≠ 0 ∧ s.processList.Admits c.listRoom ∧ s.TableRoom parent c

/-! ## The create method -/

/-- What holds when the object of the call is made, for the parent that was found. -/
structure Ready (t : ProcessSystem) (parent : Option Nat) (c : CreateProcessCall) : Prop where
  entriesHeld : t.objects.EntriesHeld
  tables : ∀ p u, t.objects.tables.lookup p = some u → ProcessTable u
  list : ListTable t.processList
  current : (t.objects.tables.lookup t.current).isSome
  parentTable : ∀ p, parent = some p → (t.objects.tables.lookup p).isSome
  inherits : Inherits c → parent.isSome
  object : ∀ o, c.object = some o → o ≠ 0 ∧ t.objects.object o = none ∧
    t.objects.tables.lookup o = none ∧ o ∉ HandleSystem.madeFrom c.answer 0
  answers : t.objects.FreshFrom c.answer 0

variable {parent : Option Nat} {v : ProcessSystem}

theorem createHandleTable_spec (hr : Ready t parent c) (ho : c.object = some o)
    (hsh : HandleSystem.Shifted t.objects v.objects {o} (Pi.single o 1)) :
    (¬ t.TableRoom parent c ∧ ∃ st extra, st ≠ .success ∧ v.createHandleTable o parent c =
        some (st, { v with allocated := v.allocated + extra }) ∧ ∀ q, .object q ∉ extra) ∨
    (t.TableRoom parent c ∧ ∃ objs made, v.createHandleTable o parent c =
        some (.success, { v with
          objects := { objs with tables := objs.tables.insert o made } }.allocate (.handleTable o)) ∧
      HandleSystem.Shifted v.objects objs (HandleSystem.madeFrom c.answer 0)
        (fun q => refs made.handleMap q) ∧
      ProcessTable made ∧ refs made.handleMap o = 0) := by
  obtain ⟨hne, hnn, -, hnt⟩ := hr.object o ho
  unfold createHandleTable TableRoom
  by_cases hin : Inherits c
  · obtain ⟨p, rfl⟩ := isSome_iff_exists.1 (hr.inherits hin)
    obtain ⟨u, hu⟩ := isSome_iff_exists.1 (hr.parentTable p rfl)
    have hv : v.objects.tables.lookup p = some u := by rw [hsh.tables, hu]
    have hb := hr.tables p u hu
    have hh : v.objects.EntriesHeld := by
      intro q
      have hsg : 0 ≤ (Pi.single o 1 : Nat → Int) q := by
        by_cases hq : q = o
        · rw [hq, Pi.single_eq_same]
          decide
        · rw [Pi.single_eq_of_ne hq]
      have := hr.entriesHeld q
      rw [HandleSystem.entries_congr hsh.tables, hsh.references]
      omega
    have hfr : v.objects.FreshFrom c.answer 0 := by
      refine ⟨fun j q type hj ha => ?_, hr.answers.once⟩
      obtain ⟨hq, hqn⟩ := hr.answers.absent j q type hj ha
      refine ⟨hq, hsh.absent q ?_ hqn⟩
      rintro rfl
      exact hnt ⟨j, type, hj, ha⟩
    have hrm : (∃ p' u', some p = some p' ∧ t.objects.tables.lookup p' = some u' ∧
        u'.CanDuplicate c.tableRoom c.mapRoom c.resizeRoom) ↔
          u.CanDuplicate c.tableRoom c.mapRoom c.resizeRoom := by
      constructor
      · rintro ⟨p', u', hp', hu', hc⟩
        cases hp'
        rw [hu] at hu'
        cases hu'
        exact hc
      · intro hc
        exact ⟨p, u, rfl, hu, hc⟩
    rw [if_pos hin, if_pos hin, bind_some, hrm, hv, bind_some]
    rcases HandleSystem.obDuplicateHandleTable_spec (q := o)
      (if c.deepCloneHandles then .duplicateHandle else .inheritHandle) hv hb.toSound hb.capacity_pos
      hh hfr c.tableRoom c.mapRoom c.resizeRoom with
      ⟨hc, st, hfl, hdp⟩ | ⟨hc, objs, made, hdp, hmd, hsn, hkn, hother⟩
    · rw [hdp, map_some]
      refine .inl ⟨hc, st, ?_⟩
      cases u.exCreateHandleTableInherit c.tableRoom c.mapRoom with
      | none => exact ⟨0, hfl, by simp, by simp⟩
      | some res =>
        cases res with
        | error st' => exact ⟨0, hfl, by simp, by simp⟩
        | ok new => exact ⟨{.handleTable o}, hfl, rfl, by simp⟩
    · obtain ⟨hcn, -⟩ | ⟨-, new, new', hcr, -⟩ := HandleTable.inherit_spec hb.toSound
        c.tableRoom c.mapRoom c.resizeRoom
      · exact absurd hc hcn
      · rw [hdp, map_some, hcr]
        refine .inr ⟨hc, objs, made, rfl, hmd, ?_, hother o hnt ?_⟩
        · exact ⟨hsn, hkn.initialSize.trans hb.made_initialSize,
            hkn.growBy.trans hb.made_growBy, hkn.limit.trans hb.made_limit⟩
        · have hle := HandleSystem.refs_le_entries hu o
          have hz := hr.entriesHeld o
          rw [HandleSystem.references_of_none hnn] at hz
          omega
  · rw [if_neg hin, if_neg hin]
    cases hb : c.tableRoom with
    | false =>
      refine .inl ⟨by simp, .insufficientMemory, 0, nofun, ?_, by simp⟩
      simp [exCreateHandleTable]
    | true =>
      cases hmp : c.mapRoom with
      | false =>
        refine .inl ⟨by simp, .insufficientMemory, 0, nofun, ?_, by simp⟩
        simp [exCreateHandleTable]
      | true =>
        have hcr : exCreateHandleTable 16 16 2048 true true =
            some (.ok ⟨16, 16, 16, 0, 2048, List.replicate 16 0⟩) := by decide +kernel
        obtain ⟨hok, he, -⟩ := HandleTable.ok_exCreateHandleTable hcr
        have hrf := refs_empty he
        refine .inr ⟨⟨rfl, rfl⟩, v.objects, _, by rw [hcr]; rfl, ?_,
          ⟨HandleTable.sound_exCreateHandleTable hcr, rfl, rfl, rfl⟩, hrf o⟩
        refine (HandleSystem.Shifted.refl _).congr (Set.empty_subset _) fun q => ?_
        rw [hrf]
        rfl

/-- The object is left behind: nobody has dropped the reference that was made with it. -/
structure Abandoned (t t' : ProcessSystem) (o : Nat) : Prop where
  objects : HandleSystem.Shifted t.objects t'.objects {o} (Pi.single o 1)
  kind : ∀ q, q ≠ o → t'.kind q = t.kind q
  allocated : t'.allocated.count (.object o) = t.allocated.count (.object o) + 1
  freed : t'.freed.count (.object o) = t.freed.count (.object o)

/-- What a process is made of. -/
def parts (o pageMap : Nat) : Multiset Resource := {.object o, .pageMap pageMap, .handleTable o}

theorem nodup_parts (o pm : Nat) : (parts o pm).Nodup := by
  simp [parts]

/-- The object has become a process, with its entry in the list and its handle table. -/
structure Initialized (t t' : ProcessSystem) (o pageMap : Nat) (made : HandleTable) : Prop where
  tables : t'.objects.tables = t.objects.tables.insert o made
  references : ∀ q, t'.objects.references q =
    t.objects.references q + refs made.handleMap q + (Pi.single o 1 : Nat → Int) q
  table : ProcessTable made
  own : refs made.handleMap o = 0
  list : ∃ i, t'.process o = some ⟨pageMap, indexToHandle i⟩ ∧
    t.processList.Placed i (address o) t'.processList ∧ t.processList.SameKind t'.processList
  kind : t'.kind = update t.kind o .process
  current : t'.current = t.current
  allocated : t'.allocated = t.allocated + parts o pageMap
  freed : t'.freed = t.freed

/-- The object has a page map and is in the process list. -/
structure Listed (t v : ProcessSystem) (o pageMap : Nat) : Prop where
  objects : HandleSystem.Shifted t.objects v.objects {o} (Pi.single o 1)
  list : ∃ i, v.process o = some ⟨pageMap, indexToHandle i⟩ ∧
    t.processList.Placed i (address o) v.processList ∧ t.processList.SameKind v.processList
  kind : v.kind = update t.kind o .process
  current : v.current = t.current
  allocated : v.allocated = t.allocated + {.object o} + {.pageMap pageMap}
  freed : v.freed = t.freed

theorem finish_spec (hr : Ready t parent c) (ho : c.object = some o) (hv : Listed t v o c.pageMap) (hpg : c.pageMap ≠ 0) :
    (¬ t.TableRoom parent c ∧ ∃ st t', st ≠ .success ∧
      ((v.createHandleTable o parent c).map fun (st, s) =>
        if st ≠ .success then (st, s.releasePageMap o) else (st, s)) =
          some (st, t') ∧ Abandoned t t' o) ∨
    (t.TableRoom parent c ∧ ∃ t' made, ((v.createHandleTable o parent c).map fun (st, s) =>
        if st ≠ .success then (st, s.releasePageMap o) else (st, s)) =
          some (.success, t') ∧ Initialized t t' o c.pageMap made) := by
  obtain ⟨i, hb, hp, hkn⟩ := hv.list
  rcases createHandleTable_spec hr ho hv.objects with
    ⟨hrm, st, extra, hfl, hc, he⟩ |
    ⟨hrm, objects, made, hc, hh, htb, hw⟩
  · rw [hc, map_some]
    dsimp only
    rw [if_pos hfl, releasePageMap]
    rw [hb]
    dsimp only
    rw [if_neg hpg]
    refine .inl ⟨hrm, st, _, hfl, rfl, hv.objects, fun q hq => ?_, ?_, ?_⟩
    · dsimp only [free, setProcess]
      rw [hv.kind, update_of_ne hq]
    · dsimp only [free, setProcess]
      rw [hv.allocated, Multiset.count_add, Multiset.count_add, Multiset.count_add,
        Multiset.count_eq_zero.2 (he o)]
      simp
    · dsimp only [free, setProcess]
      rw [hv.freed, Multiset.count_add]
      simp
  · rw [hc, map_some]
    dsimp only
    rw [if_neg (by simp)]
    refine .inr ⟨hrm, _, made, rfl, ?_⟩
    constructor
    · dsimp only [allocate]
      rw [hh.tables, hv.objects.tables]
    · intro q
      have hmd := hh.references q
      rw [hv.objects.references] at hmd
      exact hmd.trans (by omega)
    · exact htb
    · exact hw
    · exact ⟨i, hb, hp, hkn⟩
    · exact hv.kind
    · exact hv.current
    · dsimp only [allocate, parts]
      rw [hv.allocated, add_assoc, add_assoc]
      rfl
    · exact hv.freed

theorem initialize_spec (hr : Ready t parent c) (ho : c.object = some o) :
    ∃ t₁, t.obCreateObject o = some t₁ ∧ ((¬ t.Initializes parent c ∧ ∃ st t', st ≠ .success ∧
        t₁.pspInitializeProcessObject o parent c = some (st, t') ∧ Abandoned t t' o) ∨
      (t.Initializes parent c ∧ ∃ t' made,
        t₁.pspInitializeProcessObject o parent c = some (.success, t') ∧ c.pageMap ≠ 0 ∧
          Initialized t t' o c.pageMap made)) := by
  obtain ⟨hne, hnn, -, -⟩ := hr.object o ho
  obtain ⟨objs, hmk, hh, -⟩ := HandleSystem.obpAllocateObject_spec processTypeInfo hne hnn
  refine ⟨_, by rw [obCreateObject, hmk, map_some], ?_⟩
  unfold pspInitializeProcessObject Initializes
  by_cases hpg : c.pageMap = 0
  · rw [if_pos hpg]
    refine .inl ⟨fun h => h.1 hpg, .insufficientMemory, _, nofun, rfl, ?_⟩
    exact ⟨hh, fun q hq => update_of_ne hq .., by simp, rfl⟩
  · rw [if_neg hpg]
    dsimp only [pspAddProcessToList, setProcess, allocate]
    rw [update_self, bind_some]
    have har : address o ≠ 0 := by
      unfold address
      omega
    rcases HandleTable.exCreateHandle_spec hr.list.toOk har
        (ListTable.growthFits hr.list) c.listRoom with
      ⟨hnt, st, hfl, ha⟩ | ⟨had, list, i, ha, hp, hkn⟩
    · -- the process list is full
      rw [ha, map_some, bind_some]
      rw [if_pos hfl]
      refine .inl ⟨fun h => hnt h.2.1, st, _, hfl, rfl, ?_⟩
      refine ⟨hh, fun q hq => update_of_ne hq .., ?_, rfl⟩
      rw [Multiset.count_add, Multiset.count_add]
      simp
    · rw [ha, map_some, bind_some]
      rw [if_neg (by simp)]
      refine Or.imp (fun h => ⟨fun hal => h.1 hal.2.2, h.2⟩) (fun h => ?_) (finish_spec hr ho ?_ hpg)
      · obtain ⟨hrm, t', made, hc, hin⟩ := h
        exact ⟨⟨hpg, had, hrm⟩, t', made, hc, hpg, hin⟩
      · exact ⟨hh, ⟨i, update_self .., hp, hkn⟩, rfl, rfl, rfl, rfl⟩

/-! ## The delete routine -/

/-- A process that is complete is deleted with all its parts. -/
structure Deleted (v v' : ProcessSystem) (list made : HandleTable) (o pageMap : Nat) : Prop where
  processList : v'.processList.entry = list.entry
  tables : v'.objects.tables = v.objects.tables.erase o
  references : ∀ q, v'.objects.references q = v.objects.references q - refs made.handleMap q
  object : v'.objects.object o = none
  kind : v'.kind = v.kind
  current : v'.current = v.current
  allocated : v'.allocated = v.allocated
  freed : v'.freed = v.freed + parts o pageMap

theorem reap_spec {list : HandleTable} (made : HandleTable) {i pageMap : Nat}
    (hb : v.process o = some ⟨pageMap, indexToHandle i⟩) (hpg : pageMap ≠ 0)
    (htb : v.objects.tables.lookup o = some made)
    (hle : ∀ q, (refs made.handleMap q : Int) ≤ v.objects.references q)
    (hz : v.objects.references o = 0) (hkn : v.kind o = .process)
    (hp : list.Placed i (address o) v.processList) (hst : 0 < v.processList.growBy)
    (room : Bool) : ∃ v', v.reap o room = some v' ∧ Deleted v v' list made o pageMap := by
  obtain ⟨objects, hkl, hsh⟩ := HandleSystem.obKillHandleTable_spec htb hle
  obtain ⟨hh, hfn⟩ := placed_handle hp
  obtain ⟨list', hdl, hc⟩ := exDeleteHandle_found hp.ok hst hfn room
  have he : list'.entry = list.entry := by
    rw [hc.entry, hh, HandleTable.handleToIndex_handle, hp.entry,
      update_idem, ← hp.free, update_eq_self]
  have hid : indexToHandle i ≠ 0 := by
    rw [hh]
    omega
  have hcount : ∀ q, q ≠ o → objects.references q = v.objects.references q - refs made.handleMap q := by
    intro q _
    rw [hsh.references]
    omega
  let killed : ProcessSystem :=
    { v with objects := { objects with tables := objects.tables.erase o } }.free (.pageMap pageMap)
      |>.free (.handleTable o)
  refine ⟨obpFreeObject { killed.setProcess o (some ⟨pageMap, 0⟩) with processList := list' } o, ?_, ?_⟩
  · rw [reap, if_pos ⟨hz, hkn⟩, pspDeleteProcess, hb, bind_some]
    rw [if_neg hpg, hkl, bind_some, pspRemoveProcessFromList]
    dsimp only [free]
    rw [hb, bind_some]
    rw [if_neg hid, hdl]
    rfl
  · constructor
    · exact he
    · dsimp only [obpFreeObject, setProcess, killed, free]
      rw [hsh.tables]
    · intro q
      by_cases hq : q = o
      · subst hq
        have hw := hle q
        rw [hz] at hw ⊢
        rw [HandleSystem.references_of_none (update_self ..)]
        omega
      · rw [← hcount q hq]
        dsimp only [obpFreeObject, setProcess, killed, free, HandleSystem.references]
        rw [update_of_ne hq]
    · exact update_self ..
    · rfl
    · rfl
    · rfl
    · dsimp only [obpFreeObject, setProcess, parts, killed, free]
      rw [add_assoc, add_assoc]
      congr 1
      rw [← add_assoc, add_comm]
      rfl

/-! ## The object gets its handle -/

/-- The caller has a handle to the new process, which nothing else refers to. The references on the
other objects are those of the new handle table and `base`. -/
structure Inserted (t t' : ProcessSystem) (base : Nat → Int) (o pageMap : Nat) (made : HandleTable)
    (handle : Nat) : Prop where
  handle : ∃ u x, t'.objects.tables.lookup t'.current = some u ∧ ProcessTable u ∧
    u.handles handle = some x ∧ x / 8 = o
  table : t'.objects.tables.lookup o = some made
  own : refs made.handleMap o = 0
  references : ∀ q, t'.objects.references q =
    base q + refs made.handleMap q + (Pi.single o 1 : Nat → Int) q
  list : ∃ i, t'.process o = some ⟨pageMap, indexToHandle i⟩ ∧
    t.processList.Placed i (address o) t'.processList ∧ t.processList.SameKind t'.processList
  kind : t'.kind = update t.kind o .process
  current : t'.current ≠ o

/-- The objects of `t` have at least as many references in `t'`, and their types. -/
def Keeps (t t' : ProcessSystem) : Prop :=
  ∀ q, 0 < t.objects.references q →
    t.objects.references q ≤ t'.objects.references q ∧ t'.kind q = t.kind q

theorem Ready.current_ne (hr : Ready t parent c) (ho : c.object = some o) : t.current ≠ o := by
  rintro rfl
  have hc := hr.current
  rw [(hr.object _ ho).2.2.1] at hc
  cases hc

theorem Ready.references_nonneg (hr : Ready t parent c) (q : Nat) : 0 ≤ t.objects.references q := by
  have := hr.entriesHeld q
  omega

theorem insertCreated_spec (hr : Ready t parent c) (ho : c.object = some o)
    {made : HandleTable} (ht : Initialized t t' o c.pageMap made) (hpg : c.pageMap ≠ 0)
    (hu : t.objects.tables.lookup t.current = some u) (a : Option ProcessAttributes) :
    (¬ u.Admits c.insertRoom ∧ ∃ status t₂, t'.insertCreated o a c = some (.error status, t₂) ∧
      Undone t t₂ ∧ t₂.kind = update t.kind o .process) ∨
    (u.Admits c.insertRoom ∧ ∃ handle t₂, t'.insertCreated o a c = some (.ok (handle, o), t₂) ∧
      Inserted t t₂ t.objects.references o c.pageMap made handle) := by
  obtain ⟨hne, hnn, hta, -⟩ := hr.object o ho
  have hc := hr.current_ne ho
  have hp := hr.tables _ _ hu
  obtain ⟨i, hb, hpl, hkn⟩ := ht.list
  have hlk : t'.objects.tables.lookup t'.current = some u := by
    rw [ht.tables, ht.current, AList.lookup_insert_ne hc, hu]
  have hon : t'.objects.references o = 1 := by
    rw [ht.references, HandleSystem.references_of_none hnn, ht.own, Pi.single_eq_same]
    rfl
  have hst : 0 < t'.processList.growBy := by
    rw [hkn.growBy, hr.list.made_growBy]
    decide
  unfold insertCreated
  rcases HandleSystem.obpInsertObject_spec hlk hp.toOk hp.growthFits hne
      (by omega : 0 < t'.objects.references o) (a.any (·.noInherit)) (a.any (·.duplicateOnFork))
      c.insertRoom with
    ⟨hnt, s₁, status, hin, hh⟩ | ⟨ha, s₁, u', j, hin, hh, hpt, hsm⟩
  · left
    have hpos : 0 < HandleSystem.references { s₁ with tables := s₁.tables.insert t'.current u } o := by
      have := hh.references o
      rw [Pi.zero_apply, hon] at this
      exact lt_of_lt_of_eq (by decide) this.symm
    obtain ⟨s₂, hdrop, hh₂⟩ := HandleSystem.obDereferenceObject_spec hpos
    have hrf : ∀ q, s₂.references q = t.objects.references q + refs made.handleMap q := by
      intro q
      have h₁ := hh.references q
      have h₂ := hh₂.references q
      have h₃ := ht.references q
      rw [Pi.zero_apply] at h₁
      have hsm : HandleSystem.references { s₁ with tables := s₁.tables.insert t'.current u } q =
          s₁.references q := rfl
      by_cases hq : q = o
      · subst hq
        rw [Pi.single_eq_same] at h₂ h₃
        omega
      · rw [Pi.single_eq_of_ne hq] at h₂ h₃
        omega
    have htb : s₂.tables = (t.objects.tables.insert o made).insert t'.current u := by
      rw [hh₂.tables, ← ht.tables, ← hh.tables]
    obtain ⟨v, hrp, hdl⟩ := reap_spec (v := { t' with objects := s₂ }) (o := o) made hb hpg (by
        rw [htb, ht.current, AList.lookup_insert_ne hc.symm, AList.lookup_insert])
      (fun q => by
        have := hr.references_nonneg q
        rw [hrf]
        omega)
      (by rw [hrf, HandleSystem.references_of_none hnn, ht.own]; rfl)
      (by rw [ht.kind, update_self]) hpl hst c.shrinkRoom
    refine ⟨hnt, .handle status, v, ?_, ?_, hdl.kind.trans ht.kind⟩
    · rw [hin, bind_some]
      dsimp only [obDereferenceObject]
      rw [hdrop, bind_some, hrp, map_some]
    · constructor
      · exact hdl.processList
      · intro q
        rw [hdl.tables]
        rw [htb]
        by_cases hq : q = o
        · subst hq
          rw [AList.lookup_erase, hta]
        · rw [AList.lookup_erase_ne hq]
          by_cases hqc : q = t'.current
          · rw [hqc, AList.lookup_insert, ht.current, hu]
          · rw [AList.lookup_insert_ne hqc, AList.lookup_insert_ne hq]
      · intro q
        rw [hdl.references]
        rw [hrf]
        omega
      · refine ⟨parts o c.pageMap, nodup_parts .., ?_, ?_⟩
        · exact hdl.allocated.trans ht.allocated
        · exact hdl.freed.trans (congrArg (· + parts o c.pageMap) ht.freed)
  · right
    have hw : HandleSystem.references { s₁ with tables := s₁.tables.insert t'.current u' } o = 2 := by
      have := hh.references o
      rw [Pi.single_eq_same, hon] at this
      exact this
    obtain ⟨s₂, hdrop, hh₂⟩ := HandleSystem.obDereferenceObject_spec (o := o)
      (lt_of_lt_of_eq (by decide) hw.symm)
    have hrf : ∀ q, s₂.references q =
        t.objects.references q + refs made.handleMap q + (Pi.single o 1 : Nat → Int) q := by
      intro q
      have h₁ := hh.references q
      have h₂ := hh₂.references q
      have h₃ := ht.references q
      have hsm : HandleSystem.references { s₁ with tables := s₁.tables.insert t'.current u' } q =
          s₁.references q := rfl
      by_cases hq : q = o
      · subst hq
        rw [Pi.single_eq_same] at h₁ h₂ h₃ ⊢
        omega
      · rw [Pi.single_eq_of_ne hq] at h₁ h₂ h₃ ⊢
        omega
    have htb : s₂.tables = (t.objects.tables.insert o made).insert t.current u' := by
      rw [hh₂.tables, ← ht.tables, ← hh.tables, ht.current]
    have hrp : { t' with objects := s₂ }.reap o c.shrinkRoom = some { t' with objects := s₂ } := by
      rw [reap, if_neg]
      rintro ⟨hz, -⟩
      rw [hrf, HandleSystem.references_of_none hnn, ht.own, Pi.single_eq_same] at hz
      cases hz
    obtain ⟨-, hfn⟩ := placed_handle hpt
    refine ⟨ha, indexToHandle j, { t' with objects := s₂ }, ?_, ?_⟩
    · rw [hin, bind_some]
      dsimp only [obDereferenceObject]
      rw [hdrop, bind_some, hrp, map_some]
    · constructor
      · refine ⟨u', _, ?_, hp.of_ok hpt.ok hsm, hfn, addressBits_pointer _⟩
        rw [htb, ht.current, AList.lookup_insert]
      · dsimp only
        rw [htb, AList.lookup_insert_ne hc.symm, AList.lookup_insert]
      · exact ht.own
      · exact hrf
      · exact ⟨i, hb, hpl, hkn⟩
      · exact ht.kind
      · exact ht.current ▸ hc

/-- What becomes of a call that has found all it needs. -/
theorem createInserted_spec (hr : Ready t parent c)
    (hu : t.objects.tables.lookup t.current = some u) (a : Option ProcessAttributes) :
    (c.object = none ∧ ∃ st, t.createInserted a parent c = some (.error st, t)) ∨
    ∃ o, c.object = some o ∧ ((¬ t.Initializes parent c ∧ ∃ st t', t.createInserted a parent c =
          some (.error st, t') ∧ Abandoned t t' o) ∨
      (t.Initializes parent c ∧ ¬ u.Admits c.insertRoom ∧ ∃ st t',
        t.createInserted a parent c = some (.error st, t') ∧ Undone t t' ∧
          t'.kind = update t.kind o .process) ∨
      (t.Initializes parent c ∧ u.Admits c.insertRoom ∧ c.pageMap ≠ 0 ∧ ∃ handle made t',
        t.createInserted a parent c = some (.ok (handle, o), t') ∧
          Inserted t t' t.objects.references o c.pageMap made handle)) := by
  unfold createInserted
  cases ho : c.object with
  | none => exact .inl ⟨rfl, _, rfl⟩
  | some o =>
    refine .inr ⟨o, rfl, ?_⟩
    dsimp only
    obtain ⟨t₁, hc, ⟨hnt, st, t', hfl, hint, ha⟩ |
      ⟨hil, t', made, hint, hp, hz⟩⟩ := initialize_spec hr ho
    · rw [hc, bind_some, hint, bind_some]
      rw [if_neg hfl]
      exact .inl ⟨hnt, _, t', rfl, ha⟩
    · rw [hc, bind_some, hint, bind_some]
      dsimp only
      rw [if_pos rfl]
      rcases insertCreated_spec hr ho hz hp hu a with
        ⟨hfu, st, t₂, hin, hun, hkn⟩ | ⟨had, handle, t₂, hin, hir⟩
      · exact .inr (.inl ⟨hil, hfu, st, t₂, hin, hun, hkn⟩)
      · exact .inr (.inr ⟨hil, had, hp, handle, made, t₂, hin, hir⟩)

end ProcessSystem

end Boron.Ps
