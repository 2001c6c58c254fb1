import Boron.Ps.ProcessStages

/-! # Failed creation of a process

`OSCreateProcess` undoes all that it did, unless the create method of the object fails or the handle
cannot be written to its destination: in the first case nobody drops the reference on the object, in
the second it is dropped twice. -/

namespace Boron.Ps

open Ex Ob Function Option

namespace ProcessSystem

variable {s t t' : ProcessSystem} {c : CreateProcessCall} {o p : Nat} {u : HandleTable}

/-! ## What a failed call is to leave -/

/-- The call comes back, and if it fails it has left nothing. -/
def CreatesWell (s : ProcessSystem) (c : CreateProcessCall) : Prop :=
  ∃ result s', s.osCreateProcess c = some (result, s') ∧
    ∀ status, result = .error status → Undone s s'

/-! ## When it does -/

/-- The object of this type that a handle of the caller refers to. -/
def findObject (s : ProcessSystem) (handle : Nat) (kind : ObjectKind) : Option Nat :=
  (s.objectOf handle).filter fun o => s.kind o = kind

/-- The process that a handle or `CURRENT_PROCESS_HANDLE` refers to. -/
def findProcess (s : ProcessSystem) (handle : Nat) : Option Nat :=
  if handle = currentProcessHandle then some s.current else s.findObject handle .process

/-- The root directory is found, if there is one. -/
def RootFound (s : ProcessSystem) (a : Option ProcessAttributes) : Prop :=
  a.elim 0 (·.rootDirectory) ≠ 0 → (s.findObject (a.elim 0 (·.rootDirectory)) .directory).isSome

/-- `ExCreateObjectUserCall` finds what it looks for before it makes the object. -/
def MakesObject (s : ProcessSystem) (c : CreateProcessCall) : Prop :=
  (c.attributes.isSome → c.readableAgain = true) ∧ RootFound s c.attributes ∧
    c.attributes.any (·.duplicateOnFork) = false ∧ c.object.isSome

/-- All that is checked before the object is made is in order. -/
structure GetsToObject (s : ProcessSystem) (c : CreateProcessCall) : Prop where
  inherits : Inherits c → c.parentProcessHandle ≠ 0
  readable : c.attributes.isSome → c.readable = true
  name : c.attributes.any (·.hasName) = false
  parent : c.parentProcessHandle ≠ 0 → (s.findProcess c.parentProcessHandle).isSome
  makes : MakesObject s c

/-- The parent of a call. -/
def parentOf (s : ProcessSystem) (c : CreateProcessCall) : Option Nat :=
  if c.parentProcessHandle = 0 then none else s.findProcess c.parentProcessHandle

/-- If the object is made then it can be initialized, and if there is a handle it can be written. -/
def AvoidsDefects (s : ProcessSystem) (c : CreateProcessCall) : Prop :=
  GetsToObject s c → s.Initializes (s.parentOf c) c ∧
    ∀ u, s.objects.tables.lookup s.current = some u → u.Admits c.insertRoom → c.copyOut = true

/-- What the rest of the system promises: an entry of a handle table is a reference, the tables are
made as all are, a process that can be named has a handle table, and the memory that the call gets is
free. -/
structure Promised (s : ProcessSystem) (c : CreateProcessCall) : Prop where
  entriesHeld : s.objects.EntriesHeld
  tables : ∀ p u, s.objects.tables.lookup p = some u → ProcessTable u
  list : ListTable s.processList
  current : (s.objects.tables.lookup s.current).isSome ∧ 0 < s.objects.references s.current ∧
    s.kind s.current = .process
  processes : ∀ handle p, s.findObject handle .process = some p →
    (s.objects.tables.lookup p).isSome
  object : ∀ o, c.object = some o → o ≠ 0 ∧ s.objects.object o = none ∧
    s.objects.tables.lookup o = none ∧ o ∉ HandleSystem.madeFrom c.answer 0
  answers : s.objects.FreshFrom c.answer 0

/-! ## References for the call -/

/-- Only references have changed, on objects that were there. -/
def Lent (s t : ProcessSystem) (f : Nat → Int) : Prop :=
  ∃ objects, t = { s with objects := objects } ∧ HandleSystem.Shifted s.objects objects ∅ f

theorem Lent.refl (s : ProcessSystem) : Lent s s 0 := ⟨s.objects, rfl, .refl _⟩

/-- `ObReferenceObjectByHandle` for a handle that it finds, or not. -/
theorem obReferenceObjectByHandle_spec (hc : s.objects.tables.lookup s.current = some u)
    (hu : u.Ok) (hh : s.objects.EntriesHeld) (handle : Nat) (kind : ObjectKind) :
    (s.findObject handle kind = none ∧
      ∃ st, s.obReferenceObjectByHandle handle kind = some (.error st, s)) ∨
    ∃ o t, s.findObject handle kind = some o ∧ 0 < s.objects.references o ∧ s.kind o = kind ∧
      s.obReferenceObjectByHandle handle kind = some (.ok o, t) ∧ Lent s t (Pi.single o 1) := by
  unfold findObject objectOf obReferenceObjectByHandle
  rw [hc, bind_some, bind_some, exGetPointerFromHandle_eq hu, bind_some]
  cases hx : u.handles handle with
  | none => exact .inl ⟨rfl, _, rfl⟩
  | some x =>
    have hb : (HandleItem.ofPointer x).addressBits = x / 8 := rfl
    simp only [map_some, elim_some, hb, filter_some]
    by_cases hkn : s.kind (x / 8) = kind
    · have hlv : 0 < s.objects.references (x / 8) := by
        have he : u.entry (handleToIndex handle) = some x := by
          unfold HandleTable.handles at hx
          split at hx
          · exact hx
          · cases hx
        obtain ⟨hgt, hne⟩ := HandleTable.entry_eq_some.1 he
        have hpos := HandleSystem.refs_pos hgt hne
        have hle := HandleSystem.refs_le_entries hc (x / 8)
        have := hh (x / 8)
        omega
      obtain ⟨objs, hrf, hsh⟩ := HandleSystem.obReferenceObjectByPointer_spec
        (HandleSystem.live_of_references hlv)
      rw [if_pos (by simpa using hkn), if_neg (not_not.2 hkn), hrf]
      exact .inr ⟨_, _, rfl, hlv, hkn, rfl, objs, rfl, hsh⟩
    · rw [if_neg (by simpa using hkn), if_pos hkn]
      exact .inl ⟨rfl, _, rfl⟩

theorem exReferenceObjectByHandle_spec (hp : s.Promised c) (handle : Nat) :
    (s.findProcess handle = none ∧ ∃ st, s.exReferenceObjectByHandle handle = some (.error st, s)) ∨
    ∃ p t u, s.findProcess handle = some p ∧ 0 < s.objects.references p ∧
      s.objects.tables.lookup p = some u ∧
      s.exReferenceObjectByHandle handle = some (.ok p, t) ∧ Lent s t (Pi.single p 1) := by
  obtain ⟨hc, hh, hkn⟩ := hp.current
  obtain ⟨u, hu⟩ := isSome_iff_exists.1 hc
  unfold findProcess exReferenceObjectByHandle
  by_cases hps : handle = currentProcessHandle
  · rw [if_pos hps, if_pos hps]
    obtain ⟨objs, hrf, hsh⟩ := HandleSystem.obReferenceObjectByPointer_spec
      (HandleSystem.live_of_references hh)
    rw [hrf]
    exact .inr ⟨s.current, _, u, rfl, hh, hu, rfl, objs, rfl, hsh⟩
  · rw [if_neg hps, if_neg hps]
    rcases obReferenceObjectByHandle_spec hu (hp.tables _ _ hu).toOk hp.entriesHeld handle .process
      with hfl | ⟨p, t, hfn, hpos, -, hrf, hln⟩
    · exact .inl hfl
    · obtain ⟨v, hv⟩ := isSome_iff_exists.1 (hp.processes handle p hfn)
      exact .inr ⟨p, t, v, hfn, hpos, hv, hrf, hln⟩

/-! ## Lent references do not matter -/

section

variable {f f' : Nat → Int} {parent : Option Nat}

theorem Lent.tables (h : Lent s t f) : t.objects.tables = s.objects.tables := by
  obtain ⟨objs, rfl, hh⟩ := h
  exact hh.tables

theorem Lent.references (h : Lent s t f) (q : Nat) :
    t.objects.references q = s.objects.references q + f q := by
  obtain ⟨objs, rfl, hh⟩ := h
  exact hh.references q

theorem Lent.absent (h : Lent s t f) (ho : s.objects.object o = none) : t.objects.object o = none := by
  obtain ⟨objs, rfl, hh⟩ := h
  exact hh.absent o (Set.notMem_empty o) ho

theorem Lent.findObject (h : Lent s t f) (handle : Nat) (kind : ObjectKind) :
    t.findObject handle kind = s.findObject handle kind := by
  have hb := h.tables
  obtain ⟨objs, rfl, -⟩ := h
  unfold ProcessSystem.findObject objectOf
  rw [hb]

theorem Lent.initializes_iff (h : Lent s t f) : t.Initializes parent c ↔ s.Initializes parent c := by
  have hb := h.tables
  obtain ⟨objs, rfl, -⟩ := h
  unfold Initializes TableRoom
  rw [hb]

theorem Ready.lend (hr : Ready s parent c) (h : Lent s t f) (hf : ∀ q, 0 ≤ f q) : Ready t parent c := by
  obtain ⟨objs, rfl, hh⟩ := h
  have hb := hh.tables
  refine ⟨fun q => ?_, ?_, hr.list, ?_, ?_, hr.inherits, fun o ho => ?_, fun j o type hj ha => ?_,
    hr.answers.once⟩
  · have := hr.entriesHeld q
    have := hf q
    rw [HandleSystem.entries_congr hb, hh.references]
    omega
  · dsimp only
    rw [hb]
    exact hr.tables
  · dsimp only
    rw [hb]
    exact hr.current
  · dsimp only
    rw [hb]
    exact hr.parentTable
  · obtain ⟨hne, hnn, hta, hnt⟩ := hr.object o ho
    refine ⟨hne, hh.absent o (Set.notMem_empty o) hnn, ?_, hnt⟩
    rw [hb]
    exact hta
  · obtain ⟨hne, hnn⟩ := hr.answers.absent j o type hj ha
    exact ⟨hne, hh.absent o (Set.notMem_empty o) hnn⟩

theorem dereference_spec {q : Nat} (hpos : 0 < t.objects.references q)
    (hp : 1 < t.objects.references q ∨ t.kind q ≠ .process) (room : Bool) :
    ∃ t', t.obDereferenceObject q room = some t' ∧ Lent t t' (Pi.single q (-1)) := by
  obtain ⟨objs, hdrop, hh⟩ := HandleSystem.obDereferenceObject_spec hpos
  refine ⟨{ t with objects := objs }, ?_, objs, rfl, hh⟩
  rw [obDereferenceObject, hdrop, bind_some, reap, if_neg]
  rintro ⟨hz, hkn⟩
  have ha := hh.references q
  rw [Pi.single_eq_same] at ha
  dsimp only at hz
  rcases hp with hmr | hother
  · omega
  · exact hother hkn

theorem Undone.lent {s' : ProcessSystem} (h : Lent s t f) (hu : Undone t t') (h' : Lent t' s' f')
    (hf : ∀ q, f q + f' q = 0) : Undone s s' := by
  have hrf : ∀ q, s'.objects.references q = s.objects.references q := by
    intro q
    have := hf q
    rw [h'.references, hu.references, h.references]
    omega
  obtain ⟨objs, rfl, hh⟩ := h
  obtain ⟨objs', rfl, hh'⟩ := h'
  refine ⟨hu.processList, fun q => ?_, hrf, hu.freed⟩
  have := hu.handles q
  dsimp only at this ⊢
  rw [hh'.tables, this, hh.tables]

end

theorem Undone.refl (s : ProcessSystem) : Undone s s :=
  ⟨rfl, fun _ => rfl, fun _ => rfl, 0, by simp, by simp, by simp⟩

/-- The object was allocated, and was not freed. -/
def Leaked (t t' : ProcessSystem) (o : Nat) : Prop :=
  t'.allocated.count (.object o) = t.allocated.count (.object o) + 1 ∧
    t'.freed.count (.object o) = t.freed.count (.object o)

theorem Leaked.not_undone (h : Leaked t t' o) : ¬ Undone t t' := by
  intro hu
  obtain ⟨made, -, ha, hfreed⟩ := hu.freed
  obtain ⟨h₁, h₂⟩ := h
  rw [ha, Multiset.count_add] at h₁
  rw [hfreed, Multiset.count_add] at h₂
  omega

theorem Leaked.lent {s' : ProcessSystem} {f f' : Nat → Int} (h : Lent s t f) (hl : Leaked t t' o)
    (h' : Lent t' s' f') : Leaked s s' o := by
  obtain ⟨objs, rfl, -⟩ := h
  obtain ⟨objs', rfl, -⟩ := h'
  exact hl

section

variable {parent : Option Nat}

theorem ne_of_held (hnn : t.objects.object o = none) {q : Nat} (hq : 0 < t.objects.references q) :
    q ≠ o := by
  rintro rfl
  rw [HandleSystem.references_of_none hnn] at hq
  exact absurd hq (Int.lt_irrefl 0)

theorem Abandoned.keeps (h : Abandoned t t' o) (hnn : t.objects.object o = none) : Keeps t t' := by
  intro q hq
  have hne := ne_of_held hnn hq
  refine ⟨?_, h.kind q hne⟩
  rw [h.objects.references, Pi.single_eq_of_ne hne]
  omega

theorem Undone.keeps (h : Undone t t') (hkn : t'.kind = update t.kind o .process)
    (hnn : t.objects.object o = none) : Keeps t t' := by
  intro q hq
  refine ⟨Int.le_of_eq (h.references q).symm, ?_⟩
  rw [hkn, update_of_ne (ne_of_held hnn hq)]

theorem Inserted.keeps {pm handle : Nat} {made : HandleTable}
    (h : Inserted t t' t.objects.references o pm made handle)
    (hnn : t.objects.object o = none) : Keeps t t' := by
  intro q hq
  have hne := ne_of_held hnn hq
  refine ⟨?_, ?_⟩
  · rw [h.references, Pi.single_eq_of_ne hne]
    omega
  · rw [h.kind, update_of_ne hne]

end

/-! ## `ExCreateObjectUserCall` -/

/-- The references that the call has taken on an object, if it is there. -/
def borrowed (d : Option Nat) : Nat → Int := d.elim 0 fun d => Pi.single d 1

theorem borrowed_nonneg (d : Option Nat) (q : Nat) : 0 ≤ borrowed d q := by
  cases d with
  | none => exact le_rfl
  | some d =>
    change 0 ≤ (Pi.single d 1 : Nat → Int) q
    by_cases hq : q = d
    · rw [hq, Pi.single_eq_same]
      decide
    · rw [Pi.single_eq_of_ne hq]

theorem Lent.keeps {f : Nat → Int} (h : Lent s t f) (hf : ∀ q, 0 ≤ f q) : Keeps s t := by
  intro q _
  have := hf q
  rw [h.references]
  obtain ⟨objs, rfl, -⟩ := h
  exact ⟨by omega, rfl⟩

variable {t₁ t₂ : ProcessSystem}

/-- A borrowed reference can be given back to what has kept the objects. -/
theorem giveBack_spec {d : Nat} (h : Lent t t₁ (Pi.single d 1))
    (hd : 0 < t.objects.references d) (hp : Keeps t₁ t₂) (room : Bool) :
    ∃ t', t₂.obDereferenceObject d room = some t' ∧ Lent t₂ t' (Pi.single d (-1)) ∧ Keeps t t' := by
  have hw : t₁.objects.references d = t.objects.references d + 1 := by
    rw [h.references, Pi.single_eq_same]
  have hmr := (hp d (by omega)).1
  obtain ⟨t', hdrop, hln⟩ := dereference_spec (t := t₂) (q := d) (by omega) (.inl (by omega)) room
  refine ⟨t', hdrop, hln, fun q hq => ?_⟩
  have hon : 0 ≤ (Pi.single d 1 : Nat → Int) q := borrowed_nonneg (some d) q
  have h₁ := h.references q
  obtain ⟨h₂, hkn⟩ := hp q (by omega)
  have h₃ := hln.references q
  have hng : (Pi.single d (-1) : Nat → Int) q = -(Pi.single d 1 : Nat → Int) q := by
    by_cases hq : q = d
    · rw [hq, Pi.single_eq_same, Pi.single_eq_same]
    · rw [Pi.single_eq_of_ne hq, Pi.single_eq_of_ne hq, Int.neg_zero]
  refine ⟨by omega, ?_⟩
  obtain ⟨objs, rfl, -⟩ := h
  obtain ⟨objs', rfl, -⟩ := hln
  exact hkn

theorem dereferenceParentDirectory_spec {d : Option Nat}
    (h : Lent t t₁ (borrowed d)) (hd : ∀ q, d = some q → 0 < t.objects.references q)
    (hp : Keeps t₁ t₂) (room : Bool) :
    ∃ t' f, t₂.dereferenceParentDirectory d room = some t' ∧ Lent t₂ t' f ∧
      (∀ q, borrowed d q + f q = 0) ∧ Keeps t t' := by
  cases d with
  | none =>
    refine ⟨t₂, 0, rfl, .refl t₂, fun q => rfl, fun q hq => ?_⟩
    have h₁ := h.references q
    rw [show borrowed none q = 0 from rfl, Int.add_zero] at h₁
    obtain ⟨h₂, hkn⟩ := hp q (h₁ ▸ hq)
    refine ⟨h₁ ▸ h₂, ?_⟩
    obtain ⟨objs, rfl, -⟩ := h
    exact hkn
  | some d =>
    obtain ⟨t', hdrop, hln, hp'⟩ := giveBack_spec h (hd d rfl) hp room
    refine ⟨t', _, hdrop, hln, fun q => ?_, hp'⟩
    change (Pi.single d 1 : Nat → Int) q + (Pi.single d (-1) : Nat → Int) q = 0
    by_cases hq : q = d
    · rw [hq, Pi.single_eq_same, Pi.single_eq_same]
      rfl
    · rw [Pi.single_eq_of_ne hq, Pi.single_eq_of_ne hq]
      rfl

theorem referenceRootDirectory_spec (hu : s.objects.tables.lookup s.current = some u) (hok : u.Ok)
    (hh : s.objects.EntriesHeld) (a : Option ProcessAttributes) :
    (¬ RootFound s a ∧ ∃ st, s.referenceRootDirectory a = some (.error st, s)) ∨
    (RootFound s a ∧ ∃ d t, s.referenceRootDirectory a = some (.ok d, t) ∧ Lent s t (borrowed d) ∧
      ∀ q, d = some q → 0 < s.objects.references q) := by
  unfold referenceRootDirectory RootFound
  by_cases hrt : a.elim 0 (·.rootDirectory) = 0
  · rw [if_pos hrt]
    exact .inr ⟨fun h => absurd hrt h, none, s, rfl, .refl s, fun _ h => nomatch h⟩
  · rw [if_neg hrt]
    rcases obReferenceObjectByHandle_spec hu hok hh (a.elim 0 (·.rootDirectory)) .directory with
      ⟨hfn, st, hrf⟩ | ⟨o, t, hfn, hpos, -, hrf, hln⟩
    · rw [hfn, hrf]
      exact .inl ⟨fun h => (not_isSome_iff_eq_none.2 rfl) (h hrt), st, rfl⟩
    · rw [hfn, hrf]
      refine .inr ⟨fun _ => rfl, some o, t, rfl, hln, fun q hq => ?_⟩
      cases hq
      exact hpos

/-- What a call of `ExCreateObjectUserCall` comes to. -/
inductive Outcome (t : ProcessSystem) (parent : Option Nat) (c : CreateProcessCall)
    (u : HandleTable) : Option (Except ProcessStatus (Nat × Nat) × ProcessSystem) → Prop
  | undone (status : ProcessStatus) (t' : ProcessSystem)
      (h : MakesObject t c → t.Initializes parent c ∧ ¬ u.Admits c.insertRoom)
      (undone : Undone t t') (keeps : Keeps t t') : Outcome t parent c u (some (.error status, t'))
  | leaked (status : ProcessStatus) (t' : ProcessSystem) (o : Nat)
      (h : MakesObject t c ∧ ¬ t.Initializes parent c) (leaked : Leaked t t' o)
      (keeps : Keeps t t') : Outcome t parent c u (some (.error status, t'))
  | inserted (handle o : Nat) (t₁ t' : ProcessSystem) (made : HandleTable) (f : Nat → Int)
      (h : MakesObject t c ∧ t.Initializes parent c ∧ u.Admits c.insertRoom ∧ c.pageMap ≠ 0)
      (object : c.object = some o) (lent : Lent t t₁ f) (nonneg : ∀ q, 0 ≤ f q)
      (inserted : Inserted t₁ t' t₁.objects.references o c.pageMap made handle) (keeps : Keeps t t') :
      Outcome t parent c u (some (.ok (handle, o), t'))

theorem exCreateObjectUserCall_spec {parent : Option Nat} (hr : Ready t parent c)
    (hu : t.objects.tables.lookup t.current = some u) :
    Outcome t parent c u (t.exCreateObjectUserCall parent c) := by
  have hok := (hr.tables _ _ hu).toOk
  unfold exCreateObjectUserCall
  by_cases hread : c.attributes.isSome ∧ c.readableAgain = false
  · rw [if_pos hread]
    refine .undone _ _ (fun h => ?_) (.refl t) ((Lent.refl t).keeps fun _ => le_rfl)
    have := h.1 hread.1
    rw [hread.2] at this
    cases this
  · have hrd : c.attributes.isSome → c.readableAgain = true := fun h => by simpa [h] using hread
    rw [if_neg hread]
    rcases referenceRootDirectory_spec hu hok hr.entriesHeld c.attributes with
      ⟨hnt, st, hrt⟩ | ⟨hfn, d, t₁, hrt, hln, hd⟩
    · rw [hrt, bind_some]
      exact .undone _ _ (fun h => absurd h.2.1 hnt) (.refl t) ((Lent.refl t).keeps fun _ => le_rfl)
    · rw [hrt, bind_some]
      dsimp only [createIn]
      have hng := borrowed_nonneg d
      have hr₁ := hr.lend hln hng
      have hu₁ : t₁.objects.tables.lookup t₁.current = some u := by
        have hb := hln.tables
        obtain ⟨objs, rfl, -⟩ := hln
        rw [hb]
        exact hu
      -- a failure after the root directory was referenced
      have huo : ∀ st t₂, (MakesObject t c → t.Initializes parent c ∧ ¬ u.Admits c.insertRoom) →
          Undone t₁ t₂ → Keeps t₁ t₂ → Outcome t parent c u
            ((t₂.dereferenceParentDirectory d c.shrinkRoom).map (Except.error st, ·)) := by
        intro st t₂ hcn hun hp
        obtain ⟨t', f, hdrop, hln', hf, hp'⟩ :=
          dereferenceParentDirectory_spec hln hd hp c.shrinkRoom
        rw [hdrop]
        exact .undone _ _ hcn (Undone.lent hln hun hln' hf) hp'
      by_cases hfr : c.attributes.any (·.duplicateOnFork) = true
      · rw [if_pos hfr, bind_some]
        refine huo _ _ (fun h => ?_) (.refl t₁) ((Lent.refl t₁).keeps fun _ => le_rfl)
        rw [h.2.2.1] at hfr
        cases hfr
      · rw [if_neg hfr]
        have hmk : c.object.isSome → MakesObject t c := fun h =>
          ⟨hrd, hfn, Bool.not_eq_true _ ▸ hfr, h⟩
        rcases createInserted_spec hr₁ hu₁ c.attributes with
          ⟨hnn, st, hc⟩ | ⟨o, ho, hcs⟩
        · rw [hc, bind_some]
          refine huo _ _ (fun h => ?_) (.refl t₁) ((Lent.refl t₁).keeps fun _ => le_rfl)
          have := h.2.2.2
          rw [hnn] at this
          cases this
        · have hmd := hmk (by rw [ho]; rfl)
          have hgn := (hr₁.object o ho).2.1
          rw [hln.initializes_iff] at hcs
          rcases hcs with ⟨hin, st, t₂, hc, ha⟩ | ⟨hin, hfl, st, t₂, hc, hun, hkn⟩ |
            ⟨hin, had, hpg, handle, made, t₂, hc, hins⟩
          · rw [hc, bind_some]
            obtain ⟨t', f, hdrop, hln', -, hp'⟩ :=
              dereferenceParentDirectory_spec hln hd (ha.keeps hgn) c.shrinkRoom
            rw [hdrop]
            exact .leaked _ _ o ⟨hmd, hin⟩ (Leaked.lent hln ⟨ha.allocated, ha.freed⟩ hln') hp'
          · rw [hc, bind_some]
            exact huo _ _ (fun _ => ⟨hin, hfl⟩) hun (hun.keeps hkn hgn)
          · rw [hc, bind_some]
            refine .inserted handle o t₁ t₂ made _ ⟨hmd, hin, had, hpg⟩ ho hln hng hins fun q hq => ?_
            have h₁ := hln.references q
            have h₀ := hng q
            obtain ⟨h₂, hkn⟩ := hins.keeps hgn q (by omega)
            refine ⟨by omega, ?_⟩
            obtain ⟨objs, rfl, -⟩ := hln
            exact hkn

/-! ## `OSCreateProcess` -/

variable {made : HandleTable} {handle pm : Nat} {base : Nat → Int}

/-- The last exit drops the last reference of the new process, and then closes its handle. -/
theorem finishCreation_undelivered (room : Bool) (h : Inserted t₁ t base o pm made handle)
    (hbs : ∀ q, 0 ≤ base q) (hz : base o = 0) (hls : ListTable t₁.processList)
    (hpg : pm ≠ 0) :
    ((t.obDereferenceObject o room).bind fun s => (s.osClose handle room).map
      fun s => ((.error .fault : Except ProcessStatus Nat), s)) = none := by
  obtain ⟨i, hb, hp, hkn⟩ := h.list
  obtain ⟨w, x, hlk, hw, he, hx⟩ := h.handle
  have hon : t.objects.references o = 1 := by
    rw [h.references, hz, h.own, Pi.single_eq_same]
    rfl
  obtain ⟨objs, hdrop, hh⟩ := HandleSystem.obDereferenceObject_spec (s := t.objects) (o := o) (by omega)
  have hrf : ∀ q, objs.references q = base q + refs made.handleMap q := by
    intro q
    have h₁ := hh.references q
    have h₂ := h.references q
    by_cases hq : q = o
    · subst hq
      rw [Pi.single_eq_same] at h₁ h₂
      omega
    · rw [Pi.single_eq_of_ne hq] at h₁ h₂
      omega
  obtain ⟨v, hrp, hdl⟩ := reap_spec (v := { t with objects := objs }) (o := o)
    made hb hpg (by rw [hh.tables]; exact h.table)
    (fun q => by
      have := hbs q
      rw [hrf]
      omega)
    (by rw [hrf, hz, h.own]; rfl)
    (by rw [h.kind, update_self]) hp
    (by rw [hkn.growBy, hls.made_growBy]; decide) room
  have hv : v.objects.tables.lookup v.current = some w := by
    rw [hdl.tables, hdl.current, hh.tables, AList.lookup_erase_ne h.current, hlk]
  have hc : v.objects.obClose v.current handle room = none := by
    have hst : 0 < w.growBy := by
      rw [hw.made_growBy]
      decide
    obtain ⟨w', hde, -⟩ := exDeleteHandle_found hw.toOk hst he room
    rw [HandleSystem.obClose, hv, bind_some, hde]
    rw [he, bind_some, HandleSystem.obpCloseHandle]
    have hbt : (HandleItem.ofPointer x).addressBits = o := hx
    rw [hbt, HandleSystem.addHandleCount, hdl.object]
    rfl
  rw [obDereferenceObject, hdrop, bind_some, hrp, bind_some, osClose, hc]
  rfl

theorem Inserted.lent {t' : ProcessSystem} {f : Nat → Int} (h : Inserted t₁ t base o pm made handle) (h' : Lent t t' f) :
    Inserted t₁ t' (base + f) o pm made handle := by
  obtain ⟨objs, rfl, hh⟩ := h'
  constructor
  · rw [hh.tables]
    exact h.handle
  · rw [hh.tables]
    exact h.table
  · exact h.own
  · intro q
    have h₁ := hh.references q
    have h₂ := h.references q
    dsimp only
    rw [Pi.add_apply]
    omega
  · exact h.list
  · exact h.kind
  · exact h.current

/-- The end of a call that has found its parent, or needs none. -/
theorem settle_iff (parent : Option Nat) {r : Option (Except ProcessStatus (Nat × Nat) × ProcessSystem)}
    (hln : Lent s t (borrowed parent)) (hd : ∀ q, parent = some q → 0 < s.objects.references q)
    (hr : Ready s parent c) (hu : s.objects.tables.lookup s.current = some u)
    (hot : Outcome t parent c u r) (hgt : GetsToObject s c ↔ MakesObject s c)
    (hp : s.parentOf c = parent) :
    (∃ res s', (r.bind fun x => (x.2.dereferenceParentDirectory parent c.shrinkRoom).bind
        fun s => s.finishCreation x.1 c) = some (res, s') ∧
          ∀ st, res = .error st → Undone s s') ↔ AvoidsDefects s c := by
  have hin : t.Initializes parent c ↔ s.Initializes parent c := hln.initializes_iff
  have hmk : MakesObject t c ↔ MakesObject s c := by
    unfold MakesObject RootFound
    rw [hln.findObject]
  unfold AvoidsDefects
  rw [hp, hgt]
  rcases hot with ⟨st, t', hc, hun, hkp⟩ | ⟨st, t', o, hc, hlk, hkp⟩ |
    ⟨handle, o, t₁, t', made, f, hc, ho, hln₁, hng, hins, hkp⟩
  · obtain ⟨s', f, hdrop, hln', hf, -⟩ :=
      dereferenceParentDirectory_spec hln hd hkp c.shrinkRoom
    rw [bind_some, hdrop, bind_some]
    refine iff_of_true ⟨_, s', rfl, fun _ _ => Undone.lent hln hun hln' hf⟩ fun hmd => ?_
    obtain ⟨hints, hfl⟩ := hc (hmk.2 hmd)
    refine ⟨hin.1 hints, fun u' hu' ha => absurd ?_ hfl⟩
    rw [hu] at hu'
    cases hu'
    exact ha
  · obtain ⟨s', f, hdrop, hln', -, -⟩ :=
      dereferenceParentDirectory_spec hln hd hkp c.shrinkRoom
    rw [bind_some, hdrop, bind_some]
    refine iff_of_false ?_ fun h => hc.2 (hin.2 (h (hmk.1 hc.1)).1)
    rintro ⟨res, s'', heq, hrg⟩
    cases heq
    exact (hlk.lent hln hln').not_undone (hrg st rfl)
  · obtain ⟨hmd, hints, ha, hpg⟩ := hc
    obtain ⟨s', g, hdrop, hln', hg, -⟩ :=
      dereferenceParentDirectory_spec hln hd hkp c.shrinkRoom
    rw [bind_some, hdrop, bind_some]
    dsimp only [finishCreation]
    by_cases hcp : c.copyOut = true
    · rw [if_pos hcp]
      exact iff_of_true ⟨_, s', rfl, fun _ h => nomatch h⟩ fun _ => ⟨hin.1 hints, fun _ _ _ => hcp⟩
    · rw [if_neg hcp]
      refine iff_of_false ?_ fun h => hcp ((h (hmk.1 hmd)).2 u hu ha)
      rintro ⟨res, s'', heq, -⟩
      obtain ⟨hne, hnn, -, hnt⟩ := hr.object o ho
      have hb : ∀ q, (t₁.objects.references + g) q = s.objects.references q + f q := by
        intro q
        have h₁ := hln.references q
        have h₂ := hln₁.references q
        have h₃ := hg q
        rw [Pi.add_apply]
        omega
      have hfo : f o = 0 := by
        have hnn₁ := hln.absent hnn
        have h₁ := hln₁.references o
        rw [HandleSystem.references_of_none hnn₁,
          HandleSystem.references_of_none (hln₁.absent hnn₁)] at h₁
        omega
      have hst := finishCreation_undelivered c.shrinkRoom (hins.lent hln') (fun q => by
          have h₁ := hr.references_nonneg q
          have h₂ := hng q
          rw [hb]
          omega)
        (by rw [hb, HandleSystem.references_of_none hnn, hfo]; rfl)
        (by
          obtain ⟨objs, rfl, -⟩ := hln
          obtain ⟨objs', rfl, -⟩ := hln₁
          exact hr.list) hpg
      rw [hst] at heq
      cases heq

theorem Promised.ready (hp : s.Promised c) (parent : Option Nat) (hin : Inherits c → parent.isSome)
    (hpr : ∀ p, parent = some p → (s.objects.tables.lookup p).isSome) : Ready s parent c :=
  ⟨hp.entriesHeld, hp.tables, hp.list, hp.current.1, hpr, hin, hp.object, hp.answers⟩

/-- A failed creation has left nothing, unless the object was made and could not be initialized, or
there was a handle that could not be written. -/
theorem osCreateProcess_right_iff (hp : s.Promised c) : CreatesWell s c ↔ AvoidsDefects s c := by
  obtain ⟨u, hu⟩ := isSome_iff_exists.1 hp.current.1
  -- a call that ends before `ExCreateObjectUserCall`
  have he : ∀ status, s.osCreateProcess c = some (.error status, s) → ¬ GetsToObject s c →
      (CreatesWell s c ↔ AvoidsDefects s c) := fun status heq hnt =>
    iff_of_true ⟨_, s, heq, fun _ _ => .refl s⟩ fun h => absurd h hnt
  by_cases hin : Inherits c ∧ c.parentProcessHandle = 0
  · exact he (.handle .invalidParameter) (by rw [osCreateProcess, if_pos hin])
      fun h => h.inherits hin.1 hin.2
  by_cases hread : c.attributes.isSome ∧ c.readable = false
  · refine he _ (by rw [osCreateProcess, if_neg hin, if_pos hread]) fun h => ?_
    have := h.readable hread.1
    rw [hread.2] at this
    cases this
  by_cases hnm : c.attributes.any (·.hasName) = true
  · refine he _ (by rw [osCreateProcess, if_neg hin, if_neg hread, if_pos hnm]) fun h => ?_
    rw [h.name] at hnm
    cases hnm
  have hc : (c.parentProcessHandle ≠ 0 → (s.findProcess c.parentProcessHandle).isSome) →
      (GetsToObject s c ↔ MakesObject s c) := fun hpr =>
    ⟨fun h => h.makes, fun h => ⟨fun hi hz => hin ⟨hi, hz⟩,
      fun hsm => by simpa [hsm] using hread, Bool.not_eq_true _ ▸ hnm, hpr, h⟩⟩
  unfold CreatesWell osCreateProcess
  rw [if_neg hin, if_neg hread, if_neg hnm]
  by_cases hz : c.parentProcessHandle = 0
  · have hr := hp.ready none (fun h => absurd ⟨h, hz⟩ hin) nofun
    rw [if_pos hz]
    exact settle_iff none (.refl s) nofun hr hu (exCreateObjectUserCall_spec hr hu)
      (hc fun h => absurd hz h) (by rw [parentOf, if_pos hz])
  · rw [if_neg hz]
    rcases exReferenceObjectByHandle_spec hp c.parentProcessHandle with
      ⟨hfn, status, hrf⟩ | ⟨p, t, w, hfn, hpos, hw, hrf, hln⟩
    · rw [hrf, bind_some]
      refine iff_of_true ⟨_, s, rfl, fun _ _ => .refl s⟩ fun h => ?_
      have := h.parent hz
      rw [hfn] at this
      cases this
    · have hr := hp.ready (some p) (fun _ => rfl) fun q hq => by
        cases hq
        rw [hw]
        rfl
      have hr' := hr.lend hln (borrowed_nonneg (some p))
      have hu' : t.objects.tables.lookup t.current = some u := by
        have hb := hln.tables
        obtain ⟨objects, rfl, -⟩ := hln
        rw [hb]
        exact hu
      rw [hrf, bind_some]
      exact settle_iff (some p) hln (fun q hq => by cases hq; exact hpos) hr hu
        (exCreateObjectUserCall_spec hr' hu') (hc fun _ => by rw [hfn]; rfl)
        (by rw [parentOf, if_neg hz, hfn])

/-! ## A process without handles -/

/-- Process `1` runs, and there is memory for an object `2`. -/
def lonely : ProcessSystem where
  objects :=
    { object := update (fun _ => none) 1 (some ⟨processTypeInfo, 1, 0⟩)
      tables := AList.insert 1 ⟨16, 16, 16, 0, 2048, List.replicate 16 0⟩ ∅
      held := update (fun _ => 0) 1 1 }
  kind := update (fun _ => .other) 1 .process
  process := update (fun _ => none) 1 (some ⟨0x1000, 4⟩)
  processList := ⟨256, 64, 256, 0, 1048576, address 1 :: List.replicate 255 0⟩
  current := 1
  allocated := 0
  freed := 0

/-- A call without attributes that inherits from the caller. -/
def forking : CreateProcessCall where
  attributes := none
  readable := true
  readableAgain := true
  parentProcessHandle := currentProcessHandle
  inheritHandles := true
  deepCloneHandles := true
  object := some 2
  pageMap := 0x2000
  listRoom := true
  tableRoom := true
  mapRoom := true
  resizeRoom := true
  answer := fun _ => none
  insertRoom := true
  shrinkRoom := true
  copyOut := true

theorem lonely_promised (c : CreateProcessCall) (ho : c.object = some 2)
    (ha : c.answer = fun _ => none) : lonely.Promised c := by
  have hc : exCreateHandleTable 16 16 2048 true true =
      some (.ok ⟨16, 16, 16, 0, 2048, List.replicate 16 0⟩) := by decide +kernel
  obtain ⟨-, he, -⟩ := HandleTable.ok_exCreateHandleTable hc
  have hb : ProcessTable ⟨16, 16, 16, 0, 2048, List.replicate 16 0⟩ :=
    ⟨HandleTable.sound_exCreateHandleTable hc, rfl, rfl, rfl⟩
  have hlk : ∀ p u, lonely.objects.tables.lookup p = some u →
      p = 1 ∧ u = ⟨16, 16, 16, 0, 2048, List.replicate 16 0⟩ := by
    intro p u hu
    by_cases hp : p = 1
    · subst hp
      cases hu
      exact ⟨rfl, rfl⟩
    · have hnn : lonely.objects.tables.lookup p = none := by
        change AList.lookup p (AList.insert 1 _ ∅) = none
        rw [AList.lookup_insert_ne hp, AList.lookup_empty]
      rw [hnn] at hu
      cases hu
  constructor
  · intro o
    have hen : lonely.objects.entries o = refs (List.replicate 16 0) o + 0 := rfl
    rw [hen, refs_empty he]
    by_cases ho : o = 1
    · subst ho
      decide
    · have hnn : lonely.objects.object o = none := by
        change update (fun _ => none) 1 _ o = none
        rw [update_of_ne ho]
      rw [HandleSystem.references_of_none hnn]
      rfl
  · intro p u hu
    obtain ⟨rfl, rfl⟩ := hlk p u hu
    exact hb
  · refine ⟨⟨⟨by decide +kernel, by decide +kernel, by decide, .inr (by decide), .inl (by decide), ?_⟩,
      by decide⟩, rfl, rfl, rfl⟩
    intro i hi
    cases i with
    | zero => exact le_rfl
    | succ i =>
      have hgt : lonely.processList.handleMap[i + 1]? = (List.replicate 255 0)[i]? := rfl
      rw [HandleTable.entry, hgt, List.getElem?_replicate] at hi
      split at hi <;> simp at hi
  · exact ⟨rfl, by decide, rfl⟩
  · intro handle p hfn
    have hnn : lonely.objectOf handle = none := by
      have hh : HandleTable.handles ⟨16, 16, 16, 0, 2048, List.replicate 16 0⟩ handle = none := by
        unfold HandleTable.handles
        split
        · exact he _
        · rfl
      change (HandleTable.handles ⟨16, 16, 16, 0, 2048, List.replicate 16 0⟩ handle).map _ = none
      rw [hh]
      rfl
    rw [findObject, hnn] at hfn
    cases hfn
  · intro o ho'
    rw [ho] at ho'
    cases ho'
    refine ⟨by decide, rfl, rfl, ?_⟩
    rintro ⟨j, type, -, h⟩
    rw [ha] at h
    cases h
  · constructor
    · intro j o type _ h
      rw [ha] at h
      cases h
    · intro j k o type type' h
      rw [ha] at h
      cases h

theorem osCreateProcess_right_forking : lonely.CreatesWell forking ↔ lonely.AvoidsDefects forking :=
  osCreateProcess_right_iff (lonely_promised forking rfl rfl)

/-- With no memory for the page map the object is left behind; with a destination that cannot be
written the call deletes the process and then closes its handle. -/
theorem osCreateProcess_not_undone : ¬ lonely.CreatesWell { forking with pageMap := 0 } ∧
      ¬ lonely.CreatesWell { forking with copyOut := false } := by
  constructor
  · rintro ⟨result, s', heq, hrg⟩
    have hc : (lonely.osCreateProcess { forking with pageMap := 0 }).map (fun r =>
        (r.1.toOption, r.2.allocated.count (.object 2), r.2.freed.count (.object 2))) =
          some (none, 1, 0) := by decide +kernel
    rw [heq, map_some, some_inj, Prod.mk.injEq, Prod.mk.injEq] at hc
    obtain ⟨hrs, ha, hfreed⟩ := hc
    cases result with
    | ok handle => cases hrs
    | error status =>
      obtain ⟨made, -, h₁, h₂⟩ := (hrg status rfl).freed
      rw [h₁, Multiset.count_add] at ha
      rw [h₂, Multiset.count_add] at hfreed
      have hb : lonely.allocated = lonely.freed := rfl
      rw [hb] at ha
      omega
  · rintro ⟨result, s', heq, -⟩
    have hc : (lonely.osCreateProcess { forking with copyOut := false }).isNone := by
      decide +kernel
    rw [heq] at hc
    cases hc

end ProcessSystem

end Boron.Ps
