import Boron.Mm.MappedObjects

/-! # References of mapped views (`mm/view.c`)

A call of `MmMapViewOfObject` should leave the excess of every object as it was: the lookup's reference
goes at the end, and the new one belongs to the VAD. It does unless the call makes an overlay, whose
first reference is never dropped. `mapView_right_iff` says when a call is right, as to the references
and as to the pages of its view. -/

namespace Boron.Mm

open Function List Option

/-! ## Views -/

/-- A process' address space and the mappable objects. -/
structure ViewSystem where
  space : AddressSpace
  objects : Objects

/-- A call of `MmMapViewOfObject`: what the handle leads to if a file or a section is asked for, and
the parameters. -/
structure MapViewCall where
  file : Except Status Nat
  isSeekable : Bool
  sectionObject : Except Status Nat
  base : Nat
  viewSize : Nat
  flags : Nat
  sectionOffset : Nat
  protection : Nat
  viewSize_lt : viewSize < wordSize
  sectionOffset_lt : sectionOffset < wordSize

namespace MapViewCall

/-- The checks of the parameters. -/
def accepted (c : MapViewCall) : Bool :=
  onlyFlags c.protection pageProtections &&
    onlyFlags c.flags
      (memCommit ||| memShared ||| memTopDown ||| memCow ||| memFixed ||| memOverride) &&
    c.viewSize != 0

/-- The object that the handle leads to, which must be a seekable file or a section. -/
def looked (c : MapViewCall) : Except Status Nat :=
  match c.file with
  | .ok o => if c.isSeekable then .ok o else .error .unsupportedFunction
  | .error .typeMismatch => c.sectionObject
  | .error status => .error status

def cow (c : MapViewCall) : Bool := hasFlag c.flags memCow

/-- `MEM_FIXED | MEM_OVERRIDE`. -/
def overrides (c : MapViewCall) : Bool :=
  hasFlag (viewFlags c.flags) memFixed && hasFlag (viewFlags c.flags) memOverride

/-- `ViewSizePages`. -/
def sizePages (c : MapViewCall) : Nat := viewSizePages c.viewSize c.sectionOffset

/-- The VAD of the view, once it is filled in. -/
def fill (c : MapViewCall) (vad : Vad) (mapped : Nat) : Vad :=
  { vad with
    committed := true
    mappedObject := some mapped
    sectionOffset := pageBase c.sectionOffset }

end MapViewCall

/-- How a call returns: the status, the state, `*BaseAddressInOut`, and the VAD that was made. -/
structure MapViewResult where
  status : Status
  system : ViewSystem
  base : Nat
  vad : Option Vad

namespace ViewSystem

/-- `MmReserveVirtualMemoryVad` for a call. -/
def reserve (s : ViewSystem) (e : Surroundings) (c : MapViewCall) :
    Option (Status × AddressSpace × Option (Cursor Vad)) :=
  mmReserveVirtualMemoryVad e s.space c.sizePages (viewFlags c.flags) c.protection (pageBase c.base)

/-- The references after that. -/
def reserveObjects (s : ViewSystem) (e : Surroundings) (c : MapViewCall) (objects : Objects) :
    Objects :=
  if c.overrides && (e.pool1 && e.pool2 && e.pool3) then
    objects.overrideVads (pageBase c.base) c.sizePages s.space.vads
  else objects

/-- The part of `MmpMapViewOfObject` after the overlay. -/
def mapView (s : ViewSystem) (e : Surroundings) (c : MapViewCall) (mapped : Nat) (objects : Objects) :
    Option MapViewResult :=
  let objects := s.reserveObjects e c (objects.obReferenceObjectByPointer mapped)
  match s.reserve e c with
  | none => none
  | some (status, space, none) =>
    some ⟨status, ⟨space, objects.obDereferenceObject mapped⟩, c.base, none⟩
  | some (status, space, some cursor) =>
    let vad := c.fill cursor.entry mapped
    some ⟨status, ⟨{ space with vads := Cursor.toTree { cursor with entry := vad } }, objects⟩,
      addW vad.startVa (c.sectionOffset % pageSize), some vad⟩

def mmpMapViewOfObject (s : ViewSystem) (e : Surroundings) (c : MapViewCall) (object : Nat)
    (objects : Objects) : Option MapViewResult :=
  if c.cow then
    match e.overlay with
    | none => some ⟨.insufficientMemory, ⟨s.space, objects⟩, c.base, none⟩
    | some overlay => s.mapView e c overlay (objects.mmCreateOverlayObject overlay object)
  else s.mapView e c object objects

/-- The end of `MmMapViewOfObject`, with a reference to the object in hand. -/
def mapReferenced (s : ViewSystem) (e : Surroundings) (c : MapViewCall) (object : Nat)
    (objects : Objects) : Option MapViewResult :=
  (s.mmpMapViewOfObject e c object objects).map fun r =>
    { r with system := ⟨r.system.space, r.system.objects.obDereferenceObject object⟩ }

def mmMapViewOfObject (s : ViewSystem) (e : Surroundings) (c : MapViewCall) :
    Option MapViewResult :=
  if !c.accepted then some ⟨.invalidParameter, s, c.base, none⟩
  else
    match c.file with
    | .ok file =>
      let objects := s.objects.obReferenceObjectByPointer file
      if !c.isSeekable then
        some ⟨.unsupportedFunction, ⟨s.space, objects.obDereferenceObject file⟩, c.base, none⟩
      else s.mapReferenced e c file objects
    | .error .typeMismatch =>
      match c.sectionObject with
      | .ok sectionObject =>
        s.mapReferenced e c sectionObject (s.objects.obReferenceObjectByPointer sectionObject)
      | .error status => some ⟨status, s, c.base, none⟩
    | .error status => some ⟨status, s, c.base, none⟩

/-- `MiReleaseVad`; `none` is its `KeCrash`. -/
def miReleaseVad (s : ViewSystem) (e : Surroundings) (vad : Vad) : Option ViewSystem :=
  (Mm.miReleaseVad e.tables s.space.heap s.space.written vad.node).map fun r =>
    ⟨⟨r.1, s.space.vads.erase vad, r.2⟩, s.objects.dereferenceMapped vad⟩

/-! ## What is asked of a call -/

def excess (s : ViewSystem) (o : Nat) : Int := Mm.excess s.space.vads s.objects o

/-- The VADs follow each other without wrapping around, and no object has fewer references than
holders. -/
structure WellFormed (s : ViewSystem) : Prop where
  lined : Lined Vad.startVa Vad.limit s.space.vads
  bounded : ∀ v ∈ s.space.vads, v.node.endVa = v.limit
  backed : ∀ o, 0 ≤ s.excess o

/-- A lookup that fails says so, the handle has a reference to its object, and a new overlay has an
address of its own. -/
structure Consistent (s : ViewSystem) (e : Surroundings) (c : MapViewCall) : Prop where
  wellFormed : s.WellFormed
  lookup : c.file ≠ .error .success ∧ c.sectionObject ≠ .error .success
  file : ∀ o, c.file = .ok o → 0 < s.objects.count o
  sectionObject : ∀ o, c.sectionObject = .ok o → 0 < s.objects.count o
  overlay : ∀ o, e.overlay = some o → s.objects.count o = 0

/-- What a call that succeeds should do. -/
structure Viewed (s s' : ViewSystem) (e : Surroundings) (c : MapViewCall) (vad : Vad) (base : Nat) :
    Prop where
  inTree : vad ∈ s'.space.vads
  base : base = addW vad.startVa (c.sectionOffset % pageSize)
  aligned : vad.sectionOffset % pageSize = 0
  /-- Its pages are those of the bytes of the view. -/
  pages : ∀ page, (∃ b, c.sectionOffset ≤ b ∧ b < c.sectionOffset + c.viewSize ∧ b / pageSize = page) ↔
    vad.sectionOffset / pageSize ≤ page ∧ page < vad.sectionOffset / pageSize + vad.node.size
  object : ∃ object, c.looked = .ok object ∧
    if c.cow then ∃ overlay, vad.mappedObject = some overlay ∧ (overlay, object) ∈ s'.objects.overlays
    else vad.mappedObject = some object
  references : ∀ o, s'.excess o = s.excess o
  /-- Where no other VAD goes, there is one more reference to the object that the VAD maps, and one
  to the object below a new overlay. -/
  counted : c.overrides = false → ∀ o, s'.objects.count o = s.objects.count o +
    (if vad.mappedObject = some o then 1 else 0) + if c.cow ∧ c.looked = .ok o then 1 else 0
  released : ∀ s'', s'.miReleaseVad e vad = some s'' →
    (∀ o, s''.excess o = s.excess o) ∧ (c.overrides = false → s''.objects = s.objects)

/-- The call returns; if it fails, it has changed no reference, and if it succeeds, there is a VAD as
described. -/
def MapViewRight (s : ViewSystem) (e : Surroundings) (c : MapViewCall) : Prop :=
  ∃ r, s.mmMapViewOfObject e c = some r ∧
    (r.status ≠ .success → r.system.objects = s.objects ∧ r.system.space.vads = s.space.vads) ∧
    (r.status = .success → ∃ vad, r.vad = some vad ∧ s.Viewed r.system e c vad r.base)

/-- A call whose parameters are in order is right with these objects: it makes no overlay, the
reservation returns, and if it gives a range, then the size of the view does not wrap around and
nothing is trimmed off the range. -/
def Fits (s : ViewSystem) (e : Surroundings) (c : MapViewCall) : Prop :=
  if c.cow then e.overlay = none
  else (s.reserve e c).isSome ∧
    ((∃ space cursor, s.reserve e c = some (.success, space, some cursor)) →
      c.viewSize + c.sectionOffset % pageSize + (pageSize - 1) < wordSize ∧
        (c.overrides → (trimRange (pageBase c.base) c.sizePages).size = c.sizePages))

end ViewSystem

/-! ## Reservations -/

section

variable {e : Surroundings} {s s' : AddressSpace} {status : Status} {n flags protection startVa : Nat}

theorem mmAllocateAddressSpace_size {t : HeapTree} {td pool : Bool}
    (h : (mmAllocateAddressSpace t n td pool).status = .success) :
    ∃ node, (mmAllocateAddressSpace t n td pool).outNode = some node ∧ node.size = n := by
  have ha : ∀ {c : Cursor AddressNode} {res : HeapResult},
      allocateSpaceAt n td pool c = some res → res.status = .success →
        ∃ node, res.outNode = some node ∧ node.size = n := by
    intro c res hrs hs
    simp only [allocateSpaceAt] at hrs
    split at hrs
    · next hsize =>
        rw [← some.inj hrs]
        exact ⟨_, rfl, hsize⟩
    split at hrs
    · cases hrs
    split at hrs
    · rw [← some.inj hrs] at hs
      cases hs
    · rw [← some.inj hrs]
      exact ⟨_, rfl, rfl⟩
  simp only [mmAllocateAddressSpace] at h ⊢
  split at h
  · next hp =>
      rw [if_pos hp]
      cases hw : forDown (allocateSpaceAt n td pool) t.reverse [] with
      | none =>
        rw [hw] at h
        cases h
      | some res =>
        rw [hw] at h
        obtain ⟨c, -, hrs⟩ := forDown_eq_some hw
        exact ha hrs h
  · next hp =>
      rw [if_neg hp]
      cases hu : forUp (allocateSpaceAt n td pool) [] t with
      | none =>
        rw [hu] at h
        cases h
      | some res =>
        rw [hu] at h
        obtain ⟨c, -, hrs⟩ := forUp_eq_some hu
        exact ha hrs h

theorem mmAllocateAddressRange_size {t : HeapTree} {va : Nat} {pool1 pool2 : Bool}
    (h : (mmAllocateAddressRange t va n pool1 pool2).status = .success) :
    ∃ node, (mmAllocateAddressRange t va n pool1 pool2).outNode = some node ∧
      node.size = rangePages va n := by
  simp only [mmAllocateAddressRange] at h ⊢
  split at h
  · cases h
  · next c hc =>
      revert h
      exact allocateRangeAt_cases (P := fun res => res.status = .success →
          ∃ node, res.outNode = some node ∧ node.size = rangePages va n) c _ _ _ _
        (fun status hne hs => absurd hs hne) (fun _ hsize _ => ⟨_, rfl, hsize⟩)
        (fun _ _ _ _ => ⟨_, rfl, rfl⟩) (fun _ _ _ _ => ⟨_, rfl, rfl⟩) fun _ _ _ _ => ⟨_, rfl, rfl⟩

/-- The node of a reservation. It fails without a trace. -/
theorem reserveNode_spec {node : Option AddressNode}
    (h : reserveNode e s n flags startVa = some (status, s', node)) :
    (status ≠ .success ∧ node = none ∧ s'.vads = s.vads ∧
      ((hasFlag flags memFixed && hasFlag flags memOverride) = true →
        (e.pool1 && e.pool2 && e.pool3) = false)) ∨
    (status = .success ∧ ∃ out, node = some out ∧
      if hasFlag flags memFixed && hasFlag flags memOverride then
        (e.pool1 && e.pool2 && e.pool3) = true ∧ out = trimRange startVa n ∧
          ∃ heap log, overrideVads e.tables startVa n [] s.vads s.heap s.written
            = some (s'.vads, heap, log)
      else s'.vads = s.vads ∧ out.size = if hasFlag flags memFixed then rangePages startVa n else n) := by
  rw [reserveNode] at h
  by_cases hov : (hasFlag flags memFixed && hasFlag flags memOverride) = true
  · rw [if_pos hov, mmOverrideAddressRange] at h
    by_cases hpl : (e.pool1 && e.pool2 && e.pool3) = true
    · rw [if_pos hpl] at h
      cases hvd : overrideVads e.tables startVa n [] s.vads s.heap s.written with
      | none =>
        rw [hvd] at h
        cases h
      | some r =>
        obtain ⟨vads, heap, log⟩ := r
        rw [hvd] at h
        dsimp only at h
        cases hh : overrideHeap startVa (addW startVa (mulW n pageSize)) heap with
        | none =>
          rw [hh] at h
          cases h
        | some heap' =>
          rw [hh] at h
          cases h
          refine .inr ⟨rfl, _, rfl, ?_⟩
          rw [if_pos hov]
          exact ⟨hpl, rfl, heap, log, rfl⟩
    · rw [if_neg hpl] at h
      cases h
      exact .inl ⟨by decide, rfl, rfl, fun _ => Bool.eq_false_of_not_eq_true hpl⟩
  · rw [if_neg hov] at h
    by_cases hx : hasFlag flags memFixed = true
    · rw [if_pos hx] at h
      have hc := mmAllocateAddressRange_failsClean s.heap startVa n e.pool1 e.pool2
      cases h
      by_cases hs : (mmAllocateAddressRange s.heap startVa n e.pool1 e.pool2).status = .success
      · obtain ⟨out, hot, hsize⟩ := mmAllocateAddressRange_size hs
        refine .inr ⟨hs, out, hot, ?_⟩
        rw [if_neg hov, if_pos hx]
        exact ⟨rfl, hsize⟩
      · exact .inl ⟨hs, (hc hs).2, rfl, fun hp => absurd hp hov⟩
    · rw [if_neg hx] at h
      have hc := mmAllocateAddressSpace_failsClean s.heap n (hasFlag flags memTopDown) e.pool1
      cases h
      by_cases hs : (mmAllocateAddressSpace s.heap n (hasFlag flags memTopDown) e.pool1).status
          = .success
      · obtain ⟨out, hot, hsize⟩ := mmAllocateAddressSpace_size hs
        refine .inr ⟨hs, out, hot, ?_⟩
        rw [if_neg hov, if_neg hx]
        exact ⟨rfl, hsize⟩
      · exact .inl ⟨hs, (hc hs).2, rfl, fun hp => absurd hp hov⟩

end

/-! ## Pages of a view -/

section

variable {viewSize sectionOffset n base : Nat}

/-- The number of pages that the bytes of a view lie in. -/
def coveringPages (viewSize sectionOffset : Nat) : Nat :=
  (viewSize + sectionOffset % pageSize + (pageSize - 1)) / pageSize

theorem coveringPages_iff (hsize : 0 < viewSize) (sectionOffset n : Nat) :
    (∀ page, (∃ b, sectionOffset ≤ b ∧ b < sectionOffset + viewSize ∧ b / pageSize = page) ↔
      pageBase sectionOffset / pageSize ≤ page ∧
        page < pageBase sectionOffset / pageSize + n) ↔ n = coveringPages viewSize sectionOffset := by
  have ha : ∀ page, (∃ b, sectionOffset ≤ b ∧ b < sectionOffset + viewSize ∧ b / pageSize = page) ↔
      pageBase sectionOffset / pageSize ≤ page ∧
        page < pageBase sectionOffset / pageSize + coveringPages viewSize sectionOffset := by
    intro page
    unfold coveringPages pageBase pageSize
    constructor
    · rintro ⟨b, hlo, hh, rfl⟩
      omega
    · intro h
      -- the first byte of the page, or of the view
      refine ⟨max sectionOffset (page * 4096), ?_⟩
      omega
  constructor
  · intro h
    have hpos : 0 < coveringPages viewSize sectionOffset := by
      unfold coveringPages pageSize
      omega
    have hls := (h (pageBase sectionOffset / pageSize + (coveringPages viewSize sectionOffset - 1))).1
      ((ha _).2 (by omega))
    have hnext := mt (h (pageBase sectionOffset / pageSize + coveringPages viewSize sectionOffset)).2
      fun hb => absurd ((ha _).1 hb).2 (by omega)
    omega
  · rintro rfl
    exact ha

theorem viewSizePages_eq : viewSizePages viewSize sectionOffset =
    (viewSize + sectionOffset % pageSize + (pageSize - 1)) % wordSize / pageSize := by
  unfold viewSizePages addW
  rw [Nat.mod_add_mod]

/-- The page count is right just if the sum does not wrap around. -/
theorem viewSizePages_iff (hsize : viewSize < wordSize) (sectionOffset : Nat) :
    viewSizePages viewSize sectionOffset = coveringPages viewSize sectionOffset ↔
      viewSize + sectionOffset % pageSize + (pageSize - 1) < wordSize := by
  rw [viewSizePages_eq]
  unfold coveringPages pageSize wordSize at *
  omega

theorem viewSizePages_le_one (hsize : viewSize < wordSize)
    (hw : wordSize ≤ viewSize + sectionOffset % pageSize + (pageSize - 1)) :
    viewSizePages viewSize sectionOffset ≤ 1 ∧ 1 < coveringPages viewSize sectionOffset ∧
      coveringPages viewSize sectionOffset + 3 < wordSize := by
  rw [viewSizePages_eq]
  unfold coveringPages pageSize wordSize at *
  omega

theorem rangePages_viewSizePages : rangePages (pageBase base) (viewSizePages viewSize sectionOffset) =
      viewSizePages viewSize sectionOffset := by
  have hn : viewSizePages viewSize sectionOffset * pageSize ≤ wordSize - pageSize := by
    rw [viewSizePages_eq]
    unfold pageSize wordSize
    omega
  have hmd : pageBase base % pageSize = 0 := pageBase_mod base
  unfold rangePages mulW addW
  rw [hmd]
  unfold pageSize wordSize at *
  omega

/-- A trim takes at most three pages off. -/
theorem trimRange_size_ne {startVa k : Nat} (hn : n ≤ 1) (hk : 1 < k) (hlt : k + 3 < wordSize) :
    (trimRange startVa n).size ≠ k := by
  simp only [trimRange]
  split_ifs
  all_goals
    simp only [subW, wordSize] at hlt ⊢
    omega

end

namespace ViewSystem

variable {e : Surroundings} {s s' : ViewSystem} {c : MapViewCall} {status : Status}
  {space : AddressSpace} {cursor : Cursor Vad} {objects : Objects} {object mapped : Nat}

theorem reserve_failed (h : s.reserve e c = some (status, space, none)) (objects : Objects) :
    status ≠ .success ∧ space.vads = s.space.vads ∧ s.reserveObjects e c objects = objects := by
  rw [reserve, mmReserveVirtualMemoryVad] at h
  cases hnd : reserveNode e s.space c.sizePages (viewFlags c.flags) (pageBase c.base) with
  | none =>
    rw [hnd] at h
    cases h
  | some r =>
    obtain ⟨st, sp, node⟩ := r
    rw [hnd] at h
    rcases reserveNode_spec hnd with ⟨hne, rfl, hvd, hpl⟩ | ⟨-, out, rfl, -⟩
    · cases h
      refine ⟨hne, hvd, if_neg ?_⟩
      rw [Bool.and_eq_true]
      rintro ⟨hov, hp⟩
      rw [hpl hov] at hp
      cases hp
    · dsimp only at h
      cases hin : insertItem Vad.startVa sp.vads (newVad out (viewFlags c.flags) c.protection) with
      | none =>
        rw [hin] at h
        cases h
      | some cur =>
        rw [hin] at h
        cases h

/-- What a reservation gives: a VAD of the size that was asked for, or of the range as it was
trimmed, and the references are all there. -/
theorem reserve_success (h : s.reserve e c = some (status, space, some cursor))
    (hs : s.WellFormed) (hb : ∀ x, 0 ≤ Mm.excess s.space.vads objects x) :
    status = .success ∧ cursor.remove = space.vads ∧
      (cursor.entry.node.size = if c.overrides then (trimRange (pageBase c.base) c.sizePages).size
        else if hasFlag (viewFlags c.flags) memFixed then rangePages (pageBase c.base) c.sizePages
        else c.sizePages) ∧
      (∀ x, Mm.excess space.vads (s.reserveObjects e c objects) x = Mm.excess s.space.vads objects x) ∧
      (c.overrides = false → space.vads = s.space.vads ∧ s.reserveObjects e c objects = objects) := by
  rw [reserve, mmReserveVirtualMemoryVad] at h
  cases hnd : reserveNode e s.space c.sizePages (viewFlags c.flags) (pageBase c.base) with
  | none =>
    rw [hnd] at h
    cases h
  | some r =>
    obtain ⟨st, sp, node⟩ := r
    rw [hnd] at h
    rcases reserveNode_spec hnd with ⟨hne, rfl, hvd, hp⟩ | ⟨hc, out, rfl, hot⟩
    · cases h
    · dsimp only at h
      cases hin : insertItem Vad.startVa sp.vads (newVad out (viewFlags c.flags) c.protection) with
      | none =>
        rw [hin] at h
        cases h
      | some cur =>
        rw [hin] at h
        cases h
        obtain ⟨he, hrm⟩ := toTree_of_insertItem hin
        have hsize : cursor.entry.node.size = out.size := by
          rw [he]
          rfl
        by_cases hov : c.overrides = true
        · rw [MapViewCall.overrides] at hov
          rw [if_pos hov] at hot
          obtain ⟨hp, rfl, heap, log, hrn⟩ := hot
          refine ⟨hc, hrm, ?_, fun x => ?_, fun hno => ?_⟩
          · rw [MapViewCall.overrides, if_pos hov, hsize]
          · rw [reserveObjects, MapViewCall.overrides, hov, hp, Bool.and_self, if_pos rfl]
            exact excess_overrideVads hrn hs.lined hs.bounded hb x
          · rw [MapViewCall.overrides, hov] at hno
            cases hno
        · have hno : c.overrides = false := Bool.eq_false_of_not_eq_true hov
          rw [MapViewCall.overrides] at hov
          rw [if_neg hov] at hot
          have hob : s.reserveObjects e c objects = objects := by
            rw [reserveObjects, hno, Bool.false_and]
            rfl
          refine ⟨hc, hrm, ?_, fun x => ?_, fun _ => ⟨hot.1, hob⟩⟩
          · rw [hno, if_neg Bool.false_ne_true, hsize, hot.2]
          · rw [hob, hot.1]

/-- The size of the VAD is right just if nothing wraps around and nothing is trimmed off. -/
theorem size_iff (c : MapViewCall) : (if c.overrides then (trimRange (pageBase c.base) c.sizePages).size
      else if hasFlag (viewFlags c.flags) memFixed then rangePages (pageBase c.base) c.sizePages
      else c.sizePages) = coveringPages c.viewSize c.sectionOffset ↔
    c.viewSize + c.sectionOffset % pageSize + (pageSize - 1) < wordSize ∧
      (c.overrides = true → (trimRange (pageBase c.base) c.sizePages).size = c.sizePages) := by
  have hif := viewSizePages_iff c.viewSize_lt c.sectionOffset
  have hrn : (if hasFlag (viewFlags c.flags) memFixed then
      rangePages (pageBase c.base) c.sizePages else c.sizePages) = c.sizePages := by
    rw [MapViewCall.sizePages, rangePages_viewSizePages, ite_self]
  rw [hrn]
  by_cases hov : c.overrides = true
  · rw [if_pos hov]
    constructor
    · intro h
      have hno : c.viewSize + c.sectionOffset % pageSize + (pageSize - 1) < wordSize := by
        by_contra hw
        obtain ⟨hon, hc, hlt⟩ := viewSizePages_le_one c.viewSize_lt (not_lt.1 hw)
        exact trimRange_size_ne hon hc hlt h
      exact ⟨hno, fun _ => h.trans (hif.2 hno).symm⟩
    · rintro ⟨hno, htr⟩
      exact (htr hov).trans (hif.2 hno)
  · rw [if_neg hov]
    exact hif.trans ⟨fun h => ⟨h, fun h' => absurd h' hov⟩, And.left⟩

/-! ## The call -/

/-- Without the references this is the model of the address space. -/
theorem mmpMapViewOfObject_space (s : ViewSystem) (e : Surroundings) (c : MapViewCall) (object : Nat)
    (objects : Objects) :
    (s.mmpMapViewOfObject e c object objects).map (fun r => (r.status, r.system.space)) =
      Mm.mmpMapViewOfObject e s.space object c.base c.viewSize c.flags c.sectionOffset c.protection := by
  have hw : ∀ mapped objects, (s.mapView e c mapped objects).map (fun r => (r.status, r.system.space)) =
      match s.reserve e c with
      | none => none
      | some (status, space, none) => some (status, space)
      | some (status, space, some cursor) =>
        some (status, { space with
          vads := Cursor.toTree { cursor with entry := c.fill cursor.entry mapped } }) := by
    intro mapped objects
    rw [mapView]
    cases s.reserve e c with
    | none => rfl
    | some res =>
      obtain ⟨status, space, cursor⟩ := res
      cases cursor <;> rfl
  rw [mmpMapViewOfObject, Mm.mmpMapViewOfObject]
  by_cases hc : hasFlag c.flags memCow = true
  · rw [MapViewCall.cow, if_pos hc, if_pos hc]
    cases e.overlay with
    | none => rfl
    | some ove => exact hw ove _
  · rw [MapViewCall.cow, if_neg hc, if_neg hc]
    exact hw object _

theorem dereference_reference (h : 0 < objects.count object) :
    (objects.obReferenceObjectByPointer object).obDereferenceObject object = objects := by
  have hcount : update (update objects.count object (objects.count object + 1)) object
      (objects.count object) = objects.count := by
    rw [update_idem, update_eq_self]
  rw [Objects.obDereferenceObject, Objects.obReferenceObjectByPointer]
  cases objects.overlays.length with
  | zero => simp [Objects.dereferenceWithin, hcount]
  | succ n => simp [Objects.dereferenceWithin, hcount, h.ne']

theorem excess_perm {l l' : List Vad} (h : l.Perm l') : Mm.excess l objects = Mm.excess l' objects := by
  funext x
  rw [Mm.excess, Mm.excess, held, held, h.countP_eq]

/-- A reservation that fails gives the reference back. -/
theorem mapView_failed (hr : s.reserve e c = some (status, space, none))
    (hp : 0 < objects.count mapped) :
    s.mapView e c mapped objects = some ⟨status, ⟨space, objects⟩, c.base, none⟩ := by
  obtain ⟨-, -, hb⟩ := reserve_failed hr (objects.obReferenceObjectByPointer mapped)
  rw [mapView, hr, hb]
  rw [dereference_reference hp]

theorem mapView_success (hr : s.reserve e c = some (status, space, some cursor))
    (hs : s.WellFormed) (hb : ∀ x, 0 ≤ Mm.excess s.space.vads objects x) (mapped : Nat) :
    ∃ s₁ : ViewSystem, s.mapView e c mapped objects = some ⟨.success, s₁,
        addW cursor.entry.startVa (c.sectionOffset % pageSize),
        some (c.fill cursor.entry mapped)⟩ ∧
      s₁.space.vads.Perm (c.fill cursor.entry mapped :: space.vads) ∧
      (∀ x, s₁.excess x = Mm.excess s.space.vads objects x) ∧
      (c.overrides = false → space.vads = s.space.vads ∧
        s₁.objects = objects.obReferenceObjectByPointer mapped) := by
  have hmr : ∀ x, 0 ≤ Mm.excess s.space.vads (objects.obReferenceObjectByPointer mapped) x := by
    intro x
    have hx := hb x
    rw [excess_reference]
    split <;> omega
  obtain ⟨rfl, hrm, -, he, hpl⟩ := reserve_success hr hs hmr
  refine ⟨_, by rw [mapView, hr]; rfl, ?_, fun x => ?_, hpl⟩
  · have hp := Cursor.toTree_perm { cursor with entry := c.fill cursor.entry mapped }
    rw [← hrm]
    exact hp
  · have hp := Cursor.toTree_perm { cursor with entry := c.fill cursor.entry mapped }
    have hfs := excess_remove (l := []) (r := space.vads) (v := c.fill cursor.entry mapped)
      (s := s.reserveObjects e c (objects.obReferenceObjectByPointer mapped)) x
    have hon := he x
    rw [excess_reference] at hon
    rw [Cursor.remove] at hrm
    rw [excess, excess_perm hp, Cursor.remove, hrm]
    simp only [nil_append, MapViewCall.fill, some.injEq, eq_comm (a := mapped)] at hfs ⊢
    omega

theorem looked_count (h : s.Consistent e c) (hlk : c.looked = .ok object) :
    0 < s.objects.count object := by
  rw [MapViewCall.looked] at hlk
  split at hlk
  · next file hfl =>
      split at hlk
      · cases hlk
        exact h.file _ hfl
      · cases hlk
  · exact h.sectionObject _ hlk
  · cases hlk

theorem mmMapViewOfObject_accepted (ha : c.accepted = true) (hlk : c.looked = .ok object) :
    s.mmMapViewOfObject e c =
      s.mapReferenced e c object (s.objects.obReferenceObjectByPointer object) := by
  rw [mmMapViewOfObject, ha]
  rw [MapViewCall.looked] at hlk
  split at hlk
  · next file hfl =>
      split at hlk
      · next hsk =>
          cases hlk
          simp [hsk]
      · cases hlk
  · simp [hlk]
  · cases hlk

/-- A call that is refused changes nothing. -/
theorem mmMapViewOfObject_rejected (h : s.Consistent e c)
    (hj : c.accepted = true → ∀ object, c.looked ≠ .ok object) :
    ∃ status, s.mmMapViewOfObject e c = some ⟨status, s, c.base, none⟩ ∧ status ≠ .success := by
  rw [mmMapViewOfObject]
  by_cases ha : c.accepted = true
  · have hlk := hj ha
    rw [ha]
    rw [MapViewCall.looked] at hlk
    cases hfl : c.file with
    | ok file =>
      rw [hfl] at hlk
      cases hsk : c.isSeekable with
      | true =>
        rw [hsk] at hlk
        exact absurd rfl (hlk file)
      | false =>
        refine ⟨.unsupportedFunction, ?_, by decide⟩
        simp [dereference_reference (h.file _ hfl)]
    | error status =>
      have hne : status ≠ .success := by
        rintro rfl
        exact h.lookup.1 hfl
      by_cases hy : status = .typeMismatch
      · rw [hfl, hy] at hlk
        cases hc : c.sectionObject with
        | ok object => exact absurd hc (hlk object)
        | error status' =>
          refine ⟨status', by simp [hy], ?_⟩
          rintro rfl
          exact h.lookup.2 hc
      · refine ⟨status, ?_, hne⟩
        cases status <;> first | rfl | exact absurd rfl hy
  · exact ⟨.invalidParameter, by simp [ha], by decide⟩

/-- **A view without an overlay** is right just if it has the right size. -/
theorem viewed_iff (h : s.Consistent e c) (hsize : 0 < c.viewSize) (hc : c.cow = false)
    (hlk : c.looked = .ok object)
    (hr : s.reserve e c = some (status, space, some cursor)) :
    ∃ s' base, s.mapReferenced e c object (s.objects.obReferenceObjectByPointer object)
        = some ⟨.success, s', base, some (c.fill cursor.entry object)⟩ ∧
      (s.Viewed s' e c (c.fill cursor.entry object) base ↔
        cursor.entry.node.size = coveringPages c.viewSize c.sectionOffset) := by
  have hbc := h.wellFormed.backed
  have hcount := looked_count h hlk
  have hmr : ∀ x, 0 ≤ Mm.excess s.space.vads (s.objects.obReferenceObjectByPointer object) x := by
    intro x
    have hx := hbc x
    rw [excess] at hx
    rw [excess_reference]
    split <;> omega
  obtain ⟨s₁, hmp, hp, he, hpl⟩ := mapView_success hr h.wellFormed hmr object
  have he₁ : ∀ x, s₁.excess x = s.excess x + if x = object then 1 else 0 := by
    intro x
    rw [he, excess_reference]
    rfl
  have hdr : ∀ x, Mm.excess s₁.space.vads (s₁.objects.obDereferenceObject object) x = s.excess x := by
    intro x
    rw [excess_dereference]
    · have hx := he₁ x
      rw [excess] at hx
      omega
    · intro y
      have hy := he₁ y
      have hb := hbc y
      rw [excess] at hy
      omega
  refine ⟨⟨s₁.space, s₁.objects.obDereferenceObject object⟩,
    addW cursor.entry.startVa (c.sectionOffset % pageSize), ?_, ?_⟩
  · rw [mapReferenced, mmpMapViewOfObject, hc, if_neg Bool.false_ne_true, hmp]
    rfl
  have hpages := coveringPages_iff hsize c.sectionOffset cursor.entry.node.size
  constructor
  · intro hvw
    refine hpages.1 fun page => (hvw.pages page).trans ?_
    exact Iff.rfl
  · intro hrg
    have hw : pageBase c.sectionOffset % pageSize = 0 := pageBase_mod c.sectionOffset
    -- without an override, two of the three references have been given back
    have hob : c.overrides = false → s₁.objects.obDereferenceObject object =
        s.objects.obReferenceObjectByPointer object := by
      intro hov
      rw [(hpl hov).2]
      refine dereference_reference ?_
      rw [count_reference, if_pos rfl]
      exact Nat.succ_pos _
    refine ⟨hp.mem_iff.2 mem_cons_self, rfl, hw, hpages.2 hrg, ⟨object, hlk, ?_⟩,
      hdr, fun hov o => ?_, fun s'' hrl => ?_⟩
    · rw [hc]
      rfl
    · show (s₁.objects.obDereferenceObject object).count o = _
      rw [hob hov, count_reference, hc]
      simp [MapViewCall.fill, eq_comm]
    · rw [miReleaseVad, map_eq_some_iff] at hrl
      obtain ⟨r, -, rfl⟩ := hrl
      have hers : (s₁.space.vads.erase (c.fill cursor.entry object)).Perm space.vads := by
        have hed := hp.erase (c.fill cursor.entry object)
        rwa [erase_cons_head] at hed
      refine ⟨fun o => ?_, fun hov => ?_⟩
      · show Mm.excess (s₁.space.vads.erase (c.fill cursor.entry object))
          ((s₁.objects.obDereferenceObject object).dereferenceMapped (c.fill cursor.entry object)) o = _
        have ha : ∀ x, Mm.excess ([] ++ c.fill cursor.entry object :: space.vads)
            (s₁.objects.obDereferenceObject object) x = s.excess x := by
          intro x
          rw [nil_append, ← excess_perm hp, hdr]
        have hrs := excess_release (l := []) (r := space.vads) (v := c.fill cursor.entry object)
          (s := s₁.objects.obDereferenceObject object)
          (fun x => by rw [ha]; exact hbc x) o
        rw [excess_perm hers, ← ha, ← hrs, nil_append]
      · show (s₁.objects.obDereferenceObject object).dereferenceMapped (c.fill cursor.entry object)
          = s.objects
        rw [hob hov]
        exact dereference_reference hcount

theorem not_right_of_overlay (h : s.Consistent e c) (ha : c.accepted = true)
    (hlk : c.looked = .ok object) (hw : c.cow = true) {overlay : Nat}
    (hov : e.overlay = some overlay) : ¬ s.MapViewRight e c := by
  rintro ⟨r, hrn, hfl, hsc⟩
  have hbc := h.wellFormed.backed
  have hcount := looked_count h hlk
  have hne : overlay ≠ object := by
    rintro rfl
    exact hcount.ne' (h.overlay _ hov)
  have hfr : (s.objects.obReferenceObjectByPointer object).count overlay = 0 := by
    rw [count_reference, if_neg hne, h.overlay _ hov]
  generalize hc : (s.objects.obReferenceObjectByPointer object).mmCreateOverlayObject overlay object
    = objects at *
  have hcr : ∀ x, Mm.excess s.space.vads objects x =
      s.excess x + (if x = object then 1 else 0) + if x = overlay then 1 else 0 := by
    intro x
    rw [← hc, excess_create hfr, excess_reference]
    rfl
  have hmr : ∀ x, 0 ≤ Mm.excess s.space.vads objects x := by
    intro x
    have hx := hbc x
    rw [hcr]
    omega
  -- the lookup's reference goes at the end, the overlay's first one does not
  have hdr : ∀ s₁ : ViewSystem, (∀ x, s₁.excess x = Mm.excess s.space.vads objects x) →
      Mm.excess s₁.space.vads (s₁.objects.obDereferenceObject object) overlay
        = s.excess overlay + 1 := by
    intro s₁ he
    have hx := he overlay
    rw [excess, hcr, if_neg hne, if_pos rfl] at hx
    rw [excess_dereference, hx, if_neg hne]
    · omega
    · intro y
      have hy := he y
      have hb := hbc y
      rw [excess, hcr] at hy
      omega
  rw [mmMapViewOfObject_accepted ha hlk, mapReferenced, mmpMapViewOfObject, hw, if_pos rfl, hov] at hrn
  dsimp only at hrn
  rw [hc] at hrn
  cases hr : s.reserve e c with
  | none =>
    rw [mapView, hr] at hrn
    cases hrn
  | some res =>
    obtain ⟨status, space, cursor⟩ := res
    cases cursor with
    | none =>
      obtain ⟨hst, hvd, -⟩ := reserve_failed hr objects
      have hon : 0 < objects.count overlay := by
        rw [← hc, Objects.mmCreateOverlayObject, count_reference]
        refine Nat.add_pos_left ?_ _
        show 0 < update (s.objects.obReferenceObjectByPointer object).count overlay 1 overlay
        rw [update_self]
        exact Nat.one_pos
      rw [mapView_failed hr hon] at hrn
      cases hrn
      obtain ⟨hob, -⟩ := hfl hst
      have hx := hdr ⟨space, objects⟩ fun x => by rw [excess, hvd]
      dsimp only at hob hx
      rw [hob, hvd] at hx
      rw [excess] at hx
      omega
    | some cursor =>
      obtain ⟨s₁, hp, -, he, -⟩ := mapView_success hr h.wellFormed hmr overlay
      rw [hp] at hrn
      cases hrn
      obtain ⟨vad, -, hvw⟩ := hsc rfl
      have hx := hdr s₁ he
      have hrf := hvw.references overlay
      rw [excess] at hrf
      dsimp only at hrf
      omega

/-- **A call is right** just if its parameters are refused, or it makes no overlay and the view has
the right size. -/
theorem mapView_right_iff (h : s.Consistent e c) :
    s.MapViewRight e c ↔ (c.accepted = true → (∃ object, c.looked = .ok object) → s.Fits e c) := by
  by_cases hcd : c.accepted = true ∧ ∃ object, c.looked = .ok object
  · obtain ⟨ha, object, hlk⟩ := hcd
    rw [forall_prop_of_true ha, forall_prop_of_true ⟨object, hlk⟩]
    have hcount := looked_count h hlk
    have hsize : 0 < c.viewSize := by
      have hh := ha
      simp only [MapViewCall.accepted, Bool.and_eq_true, bne_iff_ne] at hh
      omega
    have hrn := mmMapViewOfObject_accepted (s := s) (e := e) ha hlk
    cases hc : c.cow with
    | true =>
      rw [Fits, hc, if_pos rfl]
      cases hov : e.overlay with
      | none =>
        refine iff_of_true ⟨⟨.insufficientMemory, s, c.base, none⟩, ?_, fun _ => ⟨rfl, rfl⟩,
          fun hs => Status.noConfusion hs⟩ rfl
        rw [hrn, mapReferenced, mmpMapViewOfObject, hc, if_pos rfl, hov]
        dsimp only [map_some]
        rw [dereference_reference hcount]
      | some overlay =>
        exact iff_of_false (not_right_of_overlay h ha hlk hc hov) (some_ne_none _)
    | false =>
      rw [Fits, hc, if_neg Bool.false_ne_true]
      cases hr : s.reserve e c with
      | none =>
        refine iff_of_false ?_ (fun hft => by cases hft.1)
        rintro ⟨r, hp, -⟩
        rw [hrn, mapReferenced, mmpMapViewOfObject, hc, if_neg Bool.false_ne_true, mapView, hr]
          at hp
        cases hp
      | some reserved =>
        obtain ⟨status, space, cursor⟩ := reserved
        cases cursor with
        | none =>
          obtain ⟨hst, hvs, -⟩ := reserve_failed hr s.objects
          refine iff_of_true ⟨⟨status, ⟨space, s.objects⟩, c.base, none⟩, ?_,
            fun _ => ⟨rfl, hvs⟩, fun hs => absurd hs hst⟩ ⟨rfl, ?_⟩
          · have hmr : 0 < (s.objects.obReferenceObjectByPointer object).count object := by
              rw [count_reference, if_pos rfl]
              exact Nat.succ_pos _
            rw [hrn, mapReferenced, mmpMapViewOfObject, hc, if_neg Bool.false_ne_true,
              mapView_failed hr hmr]
            dsimp only [map_some]
            rw [dereference_reference hcount]
          · rintro ⟨_, _, heq⟩
            cases heq
        | some cursor =>
          obtain ⟨s', base, hp, hw⟩ := viewed_iff h hsize hc hlk hr
          have hst : status = .success := (reserve_success hr h.wellFormed h.wellFormed.backed).1
          have hnd := (reserve_success hr h.wellFormed h.wellFormed.backed).2.2.1
          rw [hst]
          have hgiven : (∃ sp cur, (some (Status.success, space, some cursor) :
              Option (Status × AddressSpace × Option (Cursor Vad))) = some (.success, sp, some cur)) :=
            ⟨space, cursor, rfl⟩
          rw [forall_prop_of_true hgiven, ← size_iff, ← hnd, ← hw]
          constructor
          · rintro ⟨r, hcl, -, hsc⟩
            rw [hrn, hp] at hcl
            cases hcl
            obtain ⟨vad, hvd, hrg⟩ := hsc rfl
            cases hvd
            exact ⟨rfl, hrg⟩
          · rintro ⟨-, hrg⟩
            exact ⟨_, hrn.trans hp, fun hne => absurd rfl hne, fun _ => ⟨_, rfl, hrg⟩⟩
  · have hj : c.accepted = true → ∀ object, c.looked ≠ .ok object :=
      fun ha object hlk => hcd ⟨ha, object, hlk⟩
    obtain ⟨status, hrn, hst⟩ := mmMapViewOfObject_rejected h hj
    refine iff_of_true ⟨_, hrn, fun _ => ⟨rfl, rfl⟩, fun hs => absurd hs hst⟩ ?_
    intro ha hlk
    exact absurd ⟨ha, hlk⟩ hcd

/-- A process with one view of a section, to which it also has a handle. -/
def sectionViews : ViewSystem where
  space := viewSpace
  objects := ⟨fun o => if o = 0 then 2 else 0, []⟩

/-- A call for three bytes more than a page of the section, from the middle of a page on. -/
def sectionCall (flags : Nat) : MapViewCall where
  file := .error .typeMismatch
  isSeekable := false
  sectionObject := .ok 0
  base := 0
  viewSize := 0x1003
  flags := flags
  sectionOffset := 0x2800
  protection := 1
  viewSize_lt := by decide
  sectionOffset_lt := by decide

theorem sectionViews_consistent (flags : Nat) (overlay : Option Nat) (h : overlay ≠ some 0) :
    sectionViews.Consistent { calmSurroundings with overlay := overlay } (sectionCall flags) where
  wellFormed := by
    refine ⟨⟨by decide, pairwise_singleton _ _⟩, by decide +kernel, fun o => ?_⟩
    by_cases ho : o = 0
    · rw [ho]
      decide
    · simp [excess, Mm.excess, held, sectionViews, viewSpace, ho, Ne.symm ho]
  lookup := ⟨by rintro ⟨⟩, by rintro ⟨⟩⟩
  file o ho := by cases ho
  sectionObject _ ho := by
    cases ho
    decide
  overlay o ho := by
    have hne : o ≠ 0 := fun h0 => h (ho.trans (congrArg some h0))
    exact if_neg hne

theorem mapView_right_plain :
    sectionViews.MapViewRight { calmSurroundings with overlay := some 1 } (sectionCall 0) := by
  refine (mapView_right_iff (sectionViews_consistent 0 (some 1) (by decide))).2 fun _ _ => ?_
  rw [Fits, show (sectionCall 0).cow = false from rfl, if_neg Bool.false_ne_true]
  exact ⟨by decide +kernel, fun _ => ⟨by decide, fun hov => absurd hov (by decide)⟩⟩

/-- The overlay of a copy-on-write view keeps its first reference. -/
theorem mapView_leaks_overlay : ¬ ∀ (s : ViewSystem) (e : Surroundings) (c : MapViewCall),
      s.Consistent e c → s.MapViewRight e c := by
  intro h
  exact not_right_of_overlay (sectionViews_consistent memCow (some 1) (by decide)) (by decide) rfl rfl rfl
    (h _ _ _ (sectionViews_consistent memCow (some 1) (by decide)))

end ViewSystem

end Boron.Mm
