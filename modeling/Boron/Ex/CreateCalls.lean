import Boron.Ex.ServiceBalance

/-! # When a call that creates an object is balanced

A call of `ExCreateObjectUserCall` that creates its object is only balanced if the object can be
linked, its create method succeeds and, when the handle gets to the caller, there was neither a root
directory nor a copied name to give back; a name of several components leaves a reference on the
directory that it was looked up in. -/

namespace Boron.Ex.Services

open Option

open Boron.Ob

variable {O : Type} [DecidableEq O]

/-! ## The calls that end well -/

/-- The directory of the root handle, if there is one. -/
def HasParent (s : Services O) (attributes : ObjectAttributes) (parent : Option O) : Prop :=
  (attributes.rootDirectory = none ∧ parent = none) ∨
    ∃ handle d, attributes.rootDirectory = some handle ∧ s.handles handle = some d ∧
      (s.ns.directory d).isSome = true ∧ parent = some d

/-- The name is a proper one, and `rest` is what is looked up in `dir`. -/
def LooksIn (m : ObManager O) (parent : Option O) (name : Name) (dir : O) (rest : Name) : Prop :=
  (parent = some dir ∧ name ≠ [] ∧ rest = name ∨
    parent = none ∧ dir = m.rootDirectory ∧ name = pathSeparator :: rest) ∧
  rest.head? ≠ some pathSeparator ∧ rest.length < obMaxPathLength - 1

/-- The name was copied to a buffer. -/
def NameCopied (s : Services O) (attributes : ObjectAttributes) : Prop :=
  s.mode = .user ∧ attributes.objectName.isSome = true

/-- From the creation of the object on, all goes well, and nothing is to be given back if the handle
gets to the caller. -/
def Completes (s : Services O) (c : CreateCall O) (attributes : ObjectAttributes)
    (target : Option (O × Name)) : Prop :=
  c.memory = true → Linkable s.ns c.room target ∧ c.createMethod = .success ∧
    (Delivers c.handle c.copyOut →
      ¬ s.NameCopied attributes ∧ attributes.rootDirectory = none)

/-- The objects with the reference on the parent directory. -/
def withParent (ns : Namespace O) : Option O → Namespace O
  | none => ns
  | some d => ns.obReferenceObjectByPointer d

/-- The lookup of the containing directory fails and leaves nothing. -/
def LookUpFails (m : ObManager O) (s : Services O) (A : Option ObjectAttributes) (parent : Option O)
    (dir : O) (path : Name) : Prop :=
  ∃ status ns', m.obpLookUpObjectPath (some dir) (some path) (some .directory) 0 {} true
      (withParent s.ns parent) = some (.error status, ns') ∧
    (∀ p, (ns'.object p).isSome = (s.ns.object p).isSome) ∧
    ∀ p, s.Parent A p → ns'.references p = (withParent s.ns parent).references p

/-- The calls that do not reach the defects of `ExCreateObjectUserCall`, with their attributes and
their parent directory known. -/
def CreatesWellIn (m : ObManager O) (s : Services O) (A : Option ObjectAttributes) (c : CreateCall O)
    (attributes : ObjectAttributes) (parent : Option O) : Prop :=
  (attributes.duplicateOnFork = true → c.supportsDuplicate = true) → c.bodySize ≠ 0 →
    (attributes.objectNameLength = 0 → s.Completes c attributes none) ∧
    ∀ name dir rest, attributes.objectNameLength ≠ 0 → attributes.objectName = some name →
      LooksIn m parent name dir rest →
      if (splitName rest).1 = [] then s.Completes c attributes (some (dir, (splitName rest).2))
      else LookUpFails m s A parent dir (splitName rest).1

section

variable {m : ObManager O} {s t : Services O} {A : Option ObjectAttributes} {c : CreateCall O}
  {parent : Option O} {attributes : ObjectAttributes}

theorem withRefs_parentRefs (hp : ∀ d ∈ parent, s.ns.Alive d) :
    m.withRefs s.ns (parentRefs parent) = withParent s.ns parent := by
  cases parent with
  | none => exact ObManager.withRefs_zero
  | some d =>
    obtain ⟨x, hx, -⟩ := hp d rfl
    have hsm : (s.ns.object d).isSome = true := by rw [hx]; rfl
    rw [parentRefs, ← Multiset.cons_zero, ← ObManager.reference_withRefs hsm, ObManager.withRefs_zero]
    rfl

omit [DecidableEq O] in
theorem looksIn_unique {name rest rest' : Name} {dir dir' : O} (h : LooksIn m parent name dir rest)
    (h' : LooksIn m parent name dir' rest') : dir = dir' ∧ rest = rest' := by
  obtain ⟨⟨hp, -, hr⟩ | ⟨hp, hd, hr⟩, -⟩ := h
  · obtain ⟨⟨hp', -, hr'⟩ | ⟨hp', -, -⟩, -⟩ := h'
    · rw [hp] at hp'
      cases hp'
      exact ⟨rfl, hr.trans hr'.symm⟩
    · rw [hp] at hp'
      cases hp'
  · obtain ⟨⟨hp', -, -⟩ | ⟨-, hd', hr'⟩, -⟩ := h'
    · rw [hp] at hp'
      cases hp'
    · rw [hr] at hr'
      cases hr'
      exact ⟨hd.trans hd'.symm, rfl⟩

/-- How `ObpNormalizeParentDirectoryAndName` goes on with a proper name. -/
def normalizeIn (m : ObManager O) (dir : O) (rest : Name) (ns : Namespace O) :
    Option (Except ObStatus (O × Name) × Namespace O) :=
  if (splitName rest).1 = [] then some (.ok (dir, (splitName rest).2), ns)
  else
    (m.obpLookUpObjectPath (some dir) (some (splitName rest).1) (some .directory) 0 {} true ns).map
      fun (result, ns) => (result.map fun dir => (dir, (splitName rest).2), ns)

theorem normalize_spec (m : ObManager O) (parent : Option O) (name : Name) (ns : Namespace O) :
    (∃ dir rest, LooksIn m parent name dir rest ∧
      m.obpNormalizeParentDirectoryAndName parent name ns = normalizeIn m dir rest ns) ∨
    ((∀ dir rest, ¬ LooksIn m parent name dir rest) ∧
      ∃ st, m.obpNormalizeParentDirectoryAndName parent name ns = some (.error st, ns)) := by
  have hfr : ∀ dir rest, (rest.head? ≠ some pathSeparator ∧ rest.length < obMaxPathLength - 1 ∧
      m.normalizeFrom dir rest ns = normalizeIn m dir rest ns) ∨
      (¬ (rest.head? ≠ some pathSeparator ∧ rest.length < obMaxPathLength - 1) ∧
        ∃ st, m.normalizeFrom dir rest ns = some (.error st, ns)) := by
    intro dir rest
    unfold ObManager.normalizeFrom
    by_cases hh : rest.head? = some pathSeparator
    · rw [if_pos hh]
      exact .inr ⟨fun h => h.1 hh, _, rfl⟩
    · rw [if_neg hh]
      by_cases hlength : rest.length ≥ obMaxPathLength - 1
      · rw [if_pos hlength]
        exact .inr ⟨fun h => absurd h.2 (by omega), _, rfl⟩
      · rw [if_neg hlength]
        exact .inl ⟨hh, by omega, rfl⟩
  unfold ObManager.obpNormalizeParentDirectoryAndName
  by_cases hnm : name = []
  · rw [if_pos hnm]
    refine .inr ⟨?_, _, rfl⟩
    rintro dir rest ⟨⟨-, hne, -⟩ | ⟨-, -, hc⟩, -⟩
    · exact hne hnm
    · rw [hnm] at hc
      cases hc
  · rw [if_neg hnm]
    cases parent with
    | some dir =>
      rcases hfr dir name with ⟨hh, hlength, heq⟩ | ⟨hnt, st, heq⟩
      · exact .inl ⟨dir, name, ⟨.inl ⟨rfl, hnm, rfl⟩, hh, hlength⟩, heq⟩
      · refine .inr ⟨?_, st, heq⟩
        rintro dir' rest ⟨⟨-, -, rfl⟩ | ⟨hp, -⟩, hpr⟩
        · exact hnt hpr
        · cases hp
    | none =>
      by_cases hh : name.head? = some pathSeparator
      · rw [if_neg (fun h => h hh)]
        obtain ⟨rest, rfl⟩ : ∃ rest, name = pathSeparator :: rest := by
          cases name with
          | nil => cases hh
          | cons c rest =>
            cases hh
            exact ⟨rest, rfl⟩
        rcases hfr m.rootDirectory rest with ⟨hpr, hlength, heq⟩ | ⟨hnt, st, heq⟩
        · exact .inl ⟨_, rest, ⟨.inr ⟨rfl, rfl, rfl⟩, hpr, hlength⟩, heq⟩
        · refine .inr ⟨?_, st, heq⟩
          rintro dir' rest' ⟨⟨hp, -⟩ | ⟨-, -, hc⟩, hpr⟩
          · cases hp
          · cases hc
            exact hnt hpr
      · rw [if_pos hh]
        refine .inr ⟨?_, _, rfl⟩
        rintro dir' rest' ⟨⟨hp, -⟩ | ⟨-, -, rfl⟩, -⟩
        · cases hp
        · exact hh rfl

/-- What the rest of the system promises for a call: the memory and the handle that it gets are
free. -/
structure CreatePromised (m : ObManager O) (s : Services O) (c : CreateCall O) : Prop where
  system : s.Promised m
  object : s.ns.object c.object = none
  parse : ∀ type method p path loopCount rest, m.parse type = some method →
    method p path loopCount ≠ .ok (c.object, rest)
  handle : ∀ handle, c.handle = .ok handle → s.handles handle = none

omit [DecidableEq O] in
/-- The memory of the new object is not where a lookup has left a reference. -/
theorem CreatePromised.not_findable (h : CreatePromised m s c) : ¬ m.Findable s.ns c.object := by
  rintro (⟨x, hx, -⟩ | ⟨-, type, method, p, path, loopCount, rest, hy, hok⟩)
  · rw [h.object] at hx
    cases hx
  · exact h.parse type method p path loopCount rest hy hok

omit [DecidableEq O] in
/-- The parent directory of a call is alive, and it is what its root handle stands for. -/
theorem HasParent.spec (hy : s.Promised m) (hhas : s.HasParent attributes parent)
    (hA : s.rootObject A = attributes.rootDirectory.bind s.handles) :
    (∀ d ∈ parent, s.ns.Alive d ∧ (s.ns.directory d).isSome = true) ∧
      ((∀ p ∈ parentRefs parent, ¬ s.Parent A p) ↔ attributes.rootDirectory = none) := by
  obtain ⟨hrt, rfl⟩ | ⟨handle, d, hrt, hh, hdr, rfl⟩ := hhas
  · exact ⟨nofun, iff_of_true (by simp [parentRefs]) hrt⟩
  · refine ⟨?_, iff_of_false ?_ (by simp [hrt])⟩
    · rintro d' hd
      cases hd
      exact ⟨hy.handles handle d hh, hdr⟩
    · intro hnn
      refine hnn d (by simp [parentRefs]) (.inr ?_)
      rw [hA, hrt, bind_some, hh]

omit [DecidableEq O] in
theorem Promised.directory_of_findable (h : s.Promised m) {d : O} (hd : m.Findable s.ns d)
    (hy : (m.body s.ns d).type = .directory) :
    s.ns.Alive d ∧ (s.ns.directory d).isSome = true := by
  rcases hd with ha | ⟨hnn, -⟩
  · refine ⟨ha, ?_⟩
    obtain ⟨x, hx, -⟩ := ha
    unfold ObManager.body at hy
    unfold Namespace.directory Object.directory
    rw [hx] at hy ⊢
    simp only [map_some, getD_some] at hy
    cases hb : x.body with
    | directory => simp [hb]
    | _ => rw [hb] at hy; cases hy
  · unfold ObManager.body at hy
    rw [hnn] at hy
    exact absurd hy (h.created d)

section

variable (h : CreatePromised m s c) (ht : s.Started t (decide (s.mode = .user)) attributes)
  (hhas : s.HasParent attributes parent)
  (hA : s.rootObject A = attributes.rootDirectory.bind s.handles)

include h ht hhas hA

section

variable (hns : t.ns = m.withRefs s.ns (parentRefs parent))
include hns

/-- A call that knows where its object goes without a lookup. -/
theorem createAt_completes_iff (tgt : Option (O × Name))
    (htr : ∀ dir name, tgt = some (dir, name) → s.ns.Alive dir ∧ (s.ns.directory dir).isSome = true) :
    ∃ res s', t.createAt c parent (decide (s.mode = .user)) attributes tgt
        = some (res, s') ∧ (s.Balanced A res s' ↔ s.Completes c attributes tgt) := by
  obtain ⟨hp, hrt⟩ := hhas.spec h.system hA
  obtain ⟨res, s', heq, hif⟩ := createAt_balanced_iff A 0 h.system ht
    (by rw [add_zero]; exact hns) h.object (by simp) (fun d hd => (hp d hd).1) h.handle htr
  refine ⟨res, s', heq, hif.trans ?_⟩
  simp only [quiet_zero, implies_true, true_and, and_true, add_zero, hrt, decide_eq_true_eq,
    Completes, NameCopied]

/-- A call that fails before it creates anything. -/
theorem createFail_balanced (st : ObStatus) :
    ∃ res s', t.createFail parent (decide (s.mode = .user)) attributes st
        = some (res, s') ∧ s.Balanced A res s' := by
  obtain ⟨hp, -⟩ := hhas.spec h.system hA
  rw [createFail_spec (m := m) (fun d hd => (hp d hd).1) (by rw [add_zero]; exact hns)]
  exact ⟨_, _, rfl, (balanced_fail_iff ht st).2 quiet_zero⟩

theorem createFail_lookUpFails {dir : O}
    {path : Name} {st : ObStatus} {leak : Multiset O}
    (hlk : m.obpLookUpObjectPath (some dir) (some path) (some .directory) 0 {} true t.ns
      = some (.error st, m.withRefs s.ns (leak + parentRefs parent))) :
    ∃ res s', { t with ns := m.withRefs s.ns (leak + parentRefs parent) }.createFail parent
        (decide (s.mode = ProcessorMode.user)) attributes st = some (res, s') ∧
      (s.Balanced A res s' ↔ LookUpFails m s A parent dir path) := by
  obtain ⟨hpr, -⟩ := hhas.spec h.system hA
  have ha : ∀ d ∈ parent, s.ns.Alive d := fun d hd => (hpr d hd).1
  have ht' : s.Started { t with ns := m.withRefs s.ns (leak + parentRefs parent) }
      (decide (s.mode = ProcessorMode.user)) attributes :=
    ⟨ht.handles, ht.mode, ht.allocated, ht.freed⟩
  rw [createFail_spec (m := m) ha (by dsimp only; rw [add_comm])]
  refine ⟨_, _, rfl, (balanced_fail_iff ht' st).trans ?_⟩
  have he : ∀ p ∈ parentRefs parent, s.ns.object p ≠ none := by
    cases parent with
    | none => simp [parentRefs]
    | some d =>
      obtain ⟨x, hx, -⟩ := ha d rfl
      simp [parentRefs, hx]
  have hsm : (∀ p, ((m.withRefs s.ns (leak + parentRefs parent)).object p).isSome
      = (s.ns.object p).isSome) ↔ ∀ p ∈ leak, s.ns.object p ≠ none := by
    rw [object_withRefs_isSome_iff]
    refine ⟨fun hal p hp => hal p (Multiset.mem_add.2 (.inl hp)), fun hal p hp => ?_⟩
    rcases Multiset.mem_add.1 hp with hp | hp
    · exact hal p hp
    · exact he p hp
  have hc : ∀ p, (m.withRefs s.ns (leak + parentRefs parent)).references p
      = (withParent s.ns parent).references p ↔ p ∉ leak := by
    intro p
    rw [← withRefs_parentRefs (m := m) ha, ObManager.references_withRefs,
      ObManager.references_withRefs, Multiset.count_add, ← Multiset.count_eq_zero]
    omega
  constructor
  · rintro ⟨hold, hpn⟩
    refine ⟨st, _, ?_, hsm.2 hold, fun p hp => (hc p).2 fun hme => hpn p hme hp⟩
    rw [← withRefs_parentRefs (m := m) ha, ← hns]
    exact hlk
  · rintro ⟨st', ns', heq, hsa, hrf⟩
    rw [← withRefs_parentRefs (m := m) ha, ← hns, hlk] at heq
    cases heq
    exact ⟨hsm.1 hsa, fun p hme hp => (hc p).1 (hrf p hp) hme⟩

theorem createAt_lookedUp (name : Name)
    {dir found : O} {path : Name} {leak : Multiset O}
    (hlp : m.obpLookUpObjectPath (some dir) (some path) (some .directory) 0 {} true t.ns
      = some (.ok found, m.withRefs s.ns ({found} + (leak + parentRefs parent))))
    (hlk : ∀ p ∈ leak, m.Findable s.ns p) (hfn : m.Findable s.ns found)
    (hty : (m.body s.ns found).type = .directory) :
    ∃ res s', { t with ns := m.withRefs s.ns ({found} + (leak + parentRefs parent)) }.createAt c
        parent (decide (s.mode = ProcessorMode.user)) attributes (some (found, name)) = some (res, s') ∧
      (s.Balanced A res s' ↔ LookUpFails m s A parent dir path) := by
  obtain ⟨hpr, -⟩ := hhas.spec h.system hA
  have ha : ∀ d ∈ parent, s.ns.Alive d := fun d hd => (hpr d hd).1
  have ht' : s.Started { t with ns := m.withRefs s.ns ({found} + (leak + parentRefs parent)) }
      (decide (s.mode = ProcessorMode.user)) attributes :=
    ⟨ht.handles, ht.mode, ht.allocated, ht.freed⟩
  obtain ⟨hfndl, hfd⟩ := h.system.directory_of_findable hfn hty
  have hp : s.Parent A found := .inl hfd
  have he : c.object ∉ {found} + leak := by
    intro hme
    rcases Multiset.mem_add.1 hme with hme | hme
    · exact h.not_findable (Multiset.mem_singleton.1 hme ▸ hfn)
    · exact h.not_findable (hlk _ hme)
  have htr : ∀ dir' name', some (found, name) = some (dir', name') → s.ns.Alive dir' ∧
      (s.ns.directory dir').isSome = true := by
    rintro dir' name' heq
    cases heq
    exact ⟨hfndl, hfd⟩
  obtain ⟨res, s', heq, hif⟩ := createAt_balanced_iff A ({found} + leak) h.system ht'
    (by dsimp only; rw [add_comm (parentRefs parent), add_assoc]) h.object he ha h.handle
    htr
  refine ⟨res, s', heq, hif.trans (iff_of_false ?_ ?_)⟩
  · rintro ⟨hno, hy⟩
    have hld : ¬ s.Quiet A ({found} + leak) := fun hq =>
      hq.2 found (by simp) hp
    cases hmr : c.memory with
    | false => exact hld (hno hmr)
    | true =>
      obtain ⟨-, -, hdr, hu⟩ := hy hmr
      by_cases hdl : Delivers c.handle c.copyOut
      · exact (hdr hdl).2 found (by simp) hp
      · exact hld (hu hdl)
  · rintro ⟨st, ns', hfl, -⟩
    rw [← withRefs_parentRefs (m := m) ha, ← hns, hlp] at hfl
    cases hfl

end

omit [DecidableEq O] ht in
theorem LooksIn.directory {name rest : Name} {dir : O} (hlk : LooksIn m parent name dir rest) :
    s.ns.Alive dir ∧ (s.ns.directory dir).isSome = true := by
  obtain ⟨⟨hp, -⟩ | ⟨-, rfl, -⟩, -⟩ := hlk
  · exact (hhas.spec h.system hA).1 dir hp
  · exact ⟨h.system.wellFormed.root, h.system.root⟩

theorem createNamed_balanced_iff (hns : t.ns = m.withRefs s.ns (parentRefs parent))
    (hsp : attributes.duplicateOnFork = true → c.supportsDuplicate = true)
    (hsize : c.bodySize ≠ 0) (hlength : attributes.objectNameLength ≠ 0) {name : Name}
    (hnm : attributes.objectName = some name) :
    ∃ res s', (((m.obpNormalizeParentDirectoryAndName parent name t.ns).bind fun
        | (.error st, ns) => some (.error st, ns)
        | (.ok target, ns) =>
          (ns.createObject c.object c.type false c.memory .success (some target) c.room).map
            fun (st, ns) => (ofStatus st, ns)).bind
              (t.afterCreate c parent (decide (s.mode = .user)) attributes)) = some (res, s') ∧
      (s.Balanced A res s' ↔ CreatesWellIn m s A c attributes parent) := by
  rcases normalize_spec m parent name t.ns with ⟨dir, rest, hls, heq⟩ | ⟨hnt, st, heq⟩
  · have hw : CreatesWellIn m s A c attributes parent ↔
        if (splitName rest).1 = [] then s.Completes c attributes (some (dir, (splitName rest).2))
        else LookUpFails m s A parent dir (splitName rest).1 := by
      constructor
      · intro hw
        exact (hw hsp hsize).2 name dir rest hlength hnm hls
      · intro hc _ _
        refine ⟨fun h0 => absurd h0 hlength, fun name' dir' rest' _ hnm' hls' => ?_⟩
        rw [hnm] at hnm'
        cases hnm'
        obtain ⟨rfl, rfl⟩ := looksIn_unique hls hls'
        exact hc
    rw [heq, hw]
    unfold normalizeIn
    by_cases hp : (splitName rest).1 = []
    · rw [if_pos hp, if_pos hp, bind_some, bind_map]
      exact createAt_completes_iff h ht hhas hA hns (some (dir, (splitName rest).2))
        (by rintro _ _ heq; cases heq; exact LooksIn.directory h hhas hA hls)
    · rw [if_neg hp, if_neg hp]
      obtain ⟨res, leak, hlp, hlk, hfo⟩ := ObManager.lookUp_does h.system.wellFormed
        (some dir) (by rintro _ hd; cases hd; exact (LooksIn.directory h hhas hA hls).1)
        (some (splitName rest).1) (some .directory) 0 {} (parentRefs parent)
      rw [← hns] at hlp
      rw [hlp]
      cases res with
      | error st =>
        simp only [ObManager.gained, zero_add] at hlp ⊢
        exact createFail_lookUpFails h ht hhas hA hns hlp
      | ok found =>
        obtain ⟨hfn, hy⟩ := hfo found rfl
        obtain ⟨res, s', hrn, hif⟩ := createAt_lookedUp h ht hhas hA hns
          (splitName rest).2 hlp hlk hfn (hy rfl)
        refine ⟨res, s', ?_, hif⟩
        rw [← hrn]
        simp only [ObManager.gained, map_some, bind_some, Except.map, bind_map]
        rfl
  · rw [heq]
    obtain ⟨res, s', hrn, hb⟩ := createFail_balanced h ht hhas hA hns st
    refine ⟨res, s', hrn, iff_of_true hb fun _ _ => ⟨fun h0 => absurd h0 hlength, ?_⟩⟩
    intro name' dir rest _ hnm' hls
    rw [hnm] at hnm'
    cases hnm'
    exact absurd hls (hnt dir rest)

/-- A call with its parent directory referenced. -/
theorem createIn_balanced_iff (hns : t.ns = m.withRefs s.ns (parentRefs parent)) :
    ∃ res s', t.createIn m c parent (decide (s.mode = .user)) attributes = some (res, s') ∧
      (s.Balanced A res s' ↔ CreatesWellIn m s A c attributes parent) := by
  have hfl : ∀ st, CreatesWellIn m s A c attributes parent →
      ∃ res s', t.createFail parent (decide (s.mode = .user)) attributes st = some (res, s') ∧
          (s.Balanced A res s' ↔ CreatesWellIn m s A c attributes parent) := by
    intro st hw
    obtain ⟨res, s', heq, hb⟩ := createFail_balanced h ht hhas hA hns st
    exact ⟨res, s', heq, iff_of_true hb hw⟩
  unfold createIn
  by_cases hfg : (attributes.duplicateOnFork && !c.supportsDuplicate) = true
  · rw [if_pos hfg]
    simp only [Bool.and_eq_true, Bool.not_eq_true'] at hfg
    refine hfl _ fun hp => ?_
    rw [hp hfg.1] at hfg
    exact absurd hfg.2 (by simp)
  · rw [if_neg hfg]
    have hp : attributes.duplicateOnFork = true → c.supportsDuplicate = true := by
      simpa using hfg
    unfold ObManager.obCreateObject
    by_cases hsize : c.bodySize = 0
    · rw [if_pos hsize]
      exact hfl .invalidParameter fun _ hne => absurd hsize hne
    · rw [if_neg hsize]
      by_cases hlength : attributes.objectNameLength = 0
      · rw [if_pos (by simpa using hlength), bind_map]
        obtain ⟨res, s', heq, hif⟩ :=
          createAt_completes_iff h ht hhas hA hns none nofun
        refine ⟨res, s', heq, hif.trans ⟨fun hdn _ _ => ⟨fun _ => hdn, ?_⟩, fun hw => ?_⟩⟩
        · intro name dir rest hne
          exact absurd hlength hne
        · exact (hw hp hsize).1 hlength
      · rw [if_neg (by simpa using hlength)]
        cases hnm : attributes.objectName with
        | none =>
          refine hfl .invalidParameter fun _ _ => ⟨fun h0 => absurd h0 hlength, ?_⟩
          intro name dir rest _ hsm
          rw [hnm] at hsm
          cases hsm
        | some name =>
          exact createNamed_balanced_iff h ht hhas hA hns hp hsize hlength hnm

end

omit [DecidableEq O] in
theorem hasParent_unique {parent' : Option O} (h : s.HasParent attributes parent)
    (h' : s.HasParent attributes parent') : parent = parent' := by
  obtain ⟨hrt, rfl⟩ | ⟨handle, d, hrt, hh, -, rfl⟩ := h
  · obtain ⟨-, rfl⟩ | ⟨handle, d, hrt', -⟩ := h'
    · rfl
    · rw [hrt] at hrt'
      cases hrt'
  · obtain ⟨hrt', -⟩ | ⟨handle', d', hrt', hh', -, rfl⟩ := h'
    · rw [hrt] at hrt'
      cases hrt'
    · rw [hrt] at hrt'
      cases hrt'
      rw [hh] at hh'
      exact hh'

/-- What a reference by handle does. -/
theorem obReferenceObjectByHandle_spec (h : s.Promised m)
    (hh : t.handles = s.handles) (hns : t.ns = s.ns) (handle : Nat)
    (et : Option ObjectType) :
    (∃ d x, s.handles handle = some d ∧ s.ns.object d = some x ∧ (∀ type ∈ et, type = x.body.type) ∧
      t.obReferenceObjectByHandle handle et = some (.ok d, { t with ns := m.withRefs s.ns {d} })) ∨
    ((∀ d x, s.handles handle = some d → s.ns.object d = some x → ¬ ∀ type ∈ et, type = x.body.type) ∧
      ∃ st, t.obReferenceObjectByHandle handle et = some (.error st, t)) := by
  unfold obReferenceObjectByHandle
  rw [hh]
  cases hd : s.handles handle with
  | none => exact .inr ⟨nofun, .invalidHandle, rfl⟩
  | some d =>
    obtain ⟨x, hx, -⟩ := h.handles handle d hd
    have hsm : (s.ns.object d).isSome = true := by rw [hx]; rfl
    dsimp only
    rw [hns, hx, map_some]
    by_cases hy : ∀ type ∈ et, type = x.body.type
    · refine .inl ⟨d, x, rfl, hx, hy, ?_⟩
      rw [if_neg, ← Multiset.cons_zero, ← ObManager.reference_withRefs hsm, ObManager.withRefs_zero]
      cases et with
      | none => simp
      | some type => simp [hy type rfl]
    · refine .inr ⟨?_, .typeMismatch, ?_⟩
      · rintro d' x' hd' hx'
        cases hd'
        rw [hx] at hx'
        cases hx'
        exact hy
      · rw [if_pos]
        cases et with
        | none => exact absurd (by simp) hy
        | some type => simpa using hy

theorem createWith_balanced_iff (h : CreatePromised m s c)
    (ht : s.Started t (decide (s.mode = .user)) attributes) (hns : t.ns = s.ns)
    (hA : s.rootObject A = attributes.rootDirectory.bind s.handles) :
    ∃ res s', t.createWith m c (decide (s.mode = .user)) attributes = some (res, s') ∧
      (s.Balanced A res s' ↔
        ∀ parent, s.HasParent attributes parent → CreatesWellIn m s A c attributes parent) := by
  have hof : ∀ parent, s.HasParent attributes parent →
      ((∀ parent, s.HasParent attributes parent → CreatesWellIn m s A c attributes parent) ↔
        CreatesWellIn m s A c attributes parent) := by
    intro parent hhas
    refine ⟨fun ha => ha parent hhas, fun hw parent' hhas' => ?_⟩
    obtain rfl := hasParent_unique hhas hhas'
    exact hw
  unfold createWith
  cases hrt : attributes.rootDirectory with
  | none =>
    have hhas : s.HasParent attributes none := .inl ⟨hrt, rfl⟩
    rw [hof none hhas]
    exact createIn_balanced_iff h ht hhas hA (by rw [hns]; exact ObManager.withRefs_zero.symm)
  | some handle =>
    rcases obReferenceObjectByHandle_spec h.system ht.handles hns handle (some .directory) with
      ⟨d, x, hh, hx, hy, heq⟩ | ⟨hnt, status, heq⟩
    · have hdr : (s.ns.directory d).isSome = true := by
        have hbd := hy .directory rfl
        unfold Namespace.directory Object.directory
        rw [hx, bind_some]
        cases hb : x.body with
        | directory => rfl
        | _ => rw [hb] at hbd; cases hbd
      have hhas : s.HasParent attributes (some d) := .inr ⟨handle, d, hrt, hh, hdr, rfl⟩
      rw [hof (some d) hhas]
      dsimp only
      rw [heq]
      exact createIn_balanced_iff (t := { t with ns := m.withRefs s.ns {d} }) h
        ⟨ht.handles, ht.mode, ht.allocated, ht.freed⟩ hhas hA rfl
    · dsimp only
      rw [heq]
      have hnn : ∀ parent, ¬ s.HasParent attributes parent := by
        rintro parent (⟨hrt', -⟩ | ⟨handle', d, hrt', hh, hdr, -⟩)
        · rw [hrt] at hrt'
          cases hrt'
        · rw [hrt] at hrt'
          cases hrt'
          obtain ⟨⟨cs, count⟩, hd⟩ := isSome_iff_exists.1 hdr
          have hbd := ObManager.body_of_directory (m := m) hd
          obtain ⟨x, hx, -⟩ := h.system.handles handle d hh
          refine hnt d x hh hx ?_
          unfold ObManager.body at hbd
          rw [hx] at hbd
          rintro type hy
          cases hy
          rw [map_some, getD_some] at hbd
          rw [hbd]
          rfl
      have hfl : t.createFail none (decide (s.mode = ProcessorMode.user)) attributes status
          = some (.error status, { t with ns := m.withRefs s.ns 0 }.dispose
              (decide (s.mode = ProcessorMode.user)) attributes) :=
        createFail_spec nofun (by rw [hns]; simp [parentRefs, ObManager.withRefs_zero]) status
      refine ⟨_, _, hfl, iff_of_true ((balanced_fail_iff ht status).2 quiet_zero) ?_⟩
      exact fun parent hhas => absurd hhas (hnn parent)

omit [DecidableEq O] in
/-- A call that fails with the copies of its attributes. -/
theorem balanced_of_buffers {alc freed : Nat}
    (h : alc + s.freed = freed + s.allocated) (st : ObStatus) :
    s.Balanced A (.error st) { s with allocated := alc, freed := freed } :=
  ⟨rfl, h, rfl, fun _ => rfl, fun _ => rfl, fun _ _ => rfl⟩

/-- The attributes that a call works with. -/
def TakesAttributes (s : Services O) (c : CreateCall O) (attributes : ObjectAttributes) : Prop :=
  match c.attributes with
  | none => attributes = noAttributes
  | some given => (s.takeAttributes given c.copying).1 = .ok attributes

/-- The calls that do not reach the defects of `ExCreateObjectUserCall`. -/
def CreatesWell (m : ObManager O) (s : Services O) (c : CreateCall O) : Prop :=
  ∀ attributes parent, s.TakesAttributes c attributes → s.HasParent attributes parent →
    CreatesWellIn m s c.attributes c attributes parent

theorem exCreateObjectUserCall_balanced_iff (h : CreatePromised m s c) :
    ∃ res s', s.exCreateObjectUserCall m c = some (res, s') ∧
      (s.Balanced c.attributes res s' ↔ CreatesWell m s c) := by
  unfold exCreateObjectUserCall CreatesWell TakesAttributes
  cases har : c.attributes with
  | none =>
    have ht : s.Started s (decide (s.mode = .user)) noAttributes :=
      ⟨rfl, rfl, by simp [noAttributes], rfl⟩
    obtain ⟨res, s', heq, hif⟩ := createWith_balanced_iff (A := none) h ht rfl rfl
    refine ⟨res, s', heq, hif.trans ⟨?_, fun ha parent => ha _ parent rfl⟩⟩
    rintro ha attributes parent rfl
    exact ha parent
  | some given =>
    dsimp only
    rcases takeAttributes_spec s given c.copying with
      ⟨status, alc, freed, heq, hcount⟩ | ⟨copied, heq, hrt⟩
    · rw [heq]
      exact ⟨_, _, rfl, iff_of_true (balanced_of_buffers hcount status) (by simp)⟩
    · rw [heq]
      obtain ⟨ht, hA⟩ := s.started_copied hrt
      obtain ⟨res, s', hrn, hif⟩ := createWith_balanced_iff h ht rfl hA
      refine ⟨res, s', hrn, hif.trans ⟨?_, fun ha parent => ha _ parent rfl⟩⟩
      rintro ha attributes parent htk
      cases htk
      exact ha parent

end

end Boron.Ex.Services
