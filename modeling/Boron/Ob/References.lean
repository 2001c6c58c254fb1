import Boron.Ex.HandleRoom
import Boron.Ob.HandleCounts

/-! # References that calls take and drop

A call on handles changes the references on objects by what it puts into a table and takes out of it.
`Shifted s s' new f` says so of two systems: the references on object `o` have grown by `f o`, no
object is gone and only those of `new` were made. A call that is given references it can drop comes
back. -/

namespace Boron.Ob

open Ex Function Option

namespace HandleSystem

variable {P : Type} [DecidableEq P] {s s' s'' : HandleSystem P} {p q : P} {o x : Nat}
  {new new' : Set Nat} {f f' : Nat → Int} {t : HandleTable}

/-- The references on an object; there are none on an object that is not there. -/
def references (s : HandleSystem P) (o : Nat) : Int := (s.object o).elim 0 (·.pointerCount)

/-- Every entry of a table is a reference on its object. -/
def EntriesHeld (s : HandleSystem P) : Prop := ∀ o, (s.entries o : Int) ≤ s.references o

structure Shifted (s s' : HandleSystem P) (new : Set Nat) (f : Nat → Int) : Prop where
  tables : s'.tables = s.tables
  live : ∀ o, (s.object o).isSome → (s'.object o).isSome
  absent : ∀ o, o ∉ new → s.object o = none → s'.object o = none
  references : ∀ o, s'.references o = s.references o + f o

section

omit [DecidableEq P]

theorem Shifted.refl (s : HandleSystem P) : Shifted s s ∅ 0 :=
  ⟨rfl, fun _ h => h, fun _ _ h => h, fun _ => (Int.add_zero _).symm⟩

theorem Shifted.trans (h : Shifted s s' new f) (h' : Shifted s' s'' new' f') :
    Shifted s s'' (new ∪ new') (f + f') := by
  constructor
  · exact h'.tables.trans h.tables
  · intro o ho
    exact h'.live o (h.live o ho)
  · intro o ho hnn
    exact h'.absent o (fun hme => ho (.inr hme)) (h.absent o (fun hme => ho (.inl hme)) hnn)
  · intro o
    rw [h'.references, h.references, Pi.add_apply, Int.add_assoc]

theorem Shifted.congr (h : Shifted s s' new f) (hw : new ⊆ new') (hf : ∀ o, f o = f' o) :
    Shifted s s' new' f' := by
  refine ⟨h.tables, h.live, fun o ho => h.absent o fun hme => ho (hw hme), fun o => ?_⟩
  rw [h.references, hf]

theorem live_of_references (h : 0 < s.references o) : (s.object o).isSome := by
  unfold HandleSystem.references at h
  cases ho : s.object o with
  | some a => rfl
  | none =>
    rw [ho] at h
    exact absurd h (Int.lt_irrefl 0)

theorem references_eq {h : ObjectHeader} (ho : s.object o = some h) :
    s.references o = h.pointerCount := by
  rw [references, ho]
  rfl

theorem references_of_none (ho : s.object o = none) : s.references o = 0 := by
  rw [references, ho]
  rfl

theorem object_setObject_of_ne {h : ObjectHeader} {o' : Nat} (he : o' ≠ o) :
    (s.setObject o h).object o' = s.object o' := update_of_ne he ..

theorem shifted_setObject {h h' : ObjectHeader} (ho : s.object o = some h) {k : Int}
    (hk : h'.pointerCount = h.pointerCount + k) :
    Shifted s (s.setObject o h') ∅ (Pi.single o k) := by
  constructor
  · rfl
  · intro o' hlv
    by_cases he : o' = o
    · subst he
      rw [object_setObject]
      rfl
    · rw [object_setObject_of_ne he]
      exact hlv
  · intro o' _ hnn
    have he : o' ≠ o := by
      rintro rfl
      rw [ho] at hnn
      cases hnn
    rw [object_setObject_of_ne he]
    exact hnn
  · intro o'
    by_cases he : o' = o
    · subst he
      rw [references_eq object_setObject, references_eq ho, hk, Pi.single_eq_same]
    · rw [Pi.single_eq_of_ne he, Int.add_zero, references, references, object_setObject_of_ne he]

/-! ## One reference -/

theorem obReferenceObjectByPointer_spec (ho : (s.object o).isSome) :
    ∃ s', s.obReferenceObjectByPointer o = some s' ∧ Shifted s s' ∅ (Pi.single o 1) := by
  obtain ⟨h, ho⟩ := isSome_iff_exists.1 ho
  rw [obReferenceObjectByPointer, ho]
  exact ⟨_, rfl, shifted_setObject ho rfl⟩

theorem obDereferenceObject_spec (ho : 0 < s.references o) :
    ∃ s', s.obDereferenceObject o = some s' ∧ Shifted s s' ∅ (Pi.single o (-1)) := by
  obtain ⟨h, hsm⟩ := isSome_iff_exists.1 (live_of_references ho)
  rw [references_eq hsm] at ho
  rw [obDereferenceObject, hsm, bind_some, if_neg (by omega)]
  exact ⟨_, rfl, shifted_setObject hsm rfl⟩

theorem addHandleCount_spec (ho : (s.object o).isSome) (k : Int) :
    ∃ s', s.addHandleCount o k = some s' ∧ Shifted s s' ∅ 0 := by
  obtain ⟨h, ho⟩ := isSome_iff_exists.1 ho
  rw [addHandleCount_eq ho]
  have hsm : ∀ h' : ObjectHeader, h'.pointerCount = h.pointerCount →
      Shifted s (s.setObject o h') ∅ 0 := by
    intro h' hk
    have hh := shifted_setObject ho (hk.trans (Int.add_zero _).symm)
    rwa [Pi.single_zero] at hh
  exact ⟨_, rfl, hsm _ rfl⟩

theorem obpAllocateObject_spec (type : TypeInfo) (ho : o ≠ 0) (hnn : s.object o = none) :
    ∃ s', s.obpAllocateObject o type = some s' ∧ Shifted s s' {o} (Pi.single o 1) ∧
      (s'.object o).isSome := by
  have hc : ¬ (o = 0 ∨ (s.object o).isSome = true) := by
    rw [hnn]
    rintro (h | h)
    · exact ho h
    · cases h
  rw [obpAllocateObject, if_neg hc]
  refine ⟨_, rfl, ⟨rfl, fun o' hlv => ?_, fun o' ho' hnn' => ?_, fun o' => ?_⟩, ?_⟩
  · have he : o' ≠ o := by
      rintro rfl
      rw [hnn] at hlv
      cases hlv
    rw [object_setObject_of_ne he]
    exact hlv
  · rw [object_setObject_of_ne (Set.mem_singleton_iff.not.1 ho')]
    exact hnn'
  · by_cases he : o' = o
    · subst he
      rw [references_eq object_setObject, references_of_none hnn, Pi.single_eq_same]
      rfl
    · rw [Pi.single_eq_of_ne he, Int.add_zero, references, references, object_setObject_of_ne he]
  · rw [object_setObject]
    rfl

end

/-! ## Entries -/

theorem refs_pos {slots : List Nat} {j : Nat} (hgt : slots[j]? = some x) (hx : x ≠ 0) :
    0 < refs slots (x / 8) :=
  List.countP_pos_iff.2 ⟨x, List.mem_of_getElem? hgt, by simp [hx, HandleItem.ofPointer]⟩

theorem refs_singleton_eq (hx : x ≠ 0) (o : Nat) :
    (refs [x] o : Int) = (Pi.single (x / 8) 1 : Nat → Int) o := by
  rw [refs_singleton hx]
  by_cases ho : x / 8 = o
  · subst ho
    rw [if_pos rfl, Pi.single_eq_same]
    rfl
  · rw [if_neg ho, Pi.single_eq_of_ne (fun he => ho he.symm)]
    rfl

omit [DecidableEq P] in
theorem obpCloseHandle_spec (hpos : 0 < s.references (x / 8)) :
    ∃ s', s.obpCloseHandle x = some s' ∧ Shifted s s' ∅ (Pi.single (x / 8) (-1)) := by
  obtain ⟨s₁, hcount, h₁⟩ := addHandleCount_spec (live_of_references hpos) (-1)
  have hpos₁ : 0 < s₁.references (x / 8) := by
    rw [h₁.references, Pi.zero_apply, Int.add_zero]
    exact hpos
  obtain ⟨s₂, hdrop, h₂⟩ := obDereferenceObject_spec hpos₁
  refine ⟨s₂, ?_, (h₁.trans h₂).congr (by simp) fun o => by simp⟩
  unfold obpCloseHandle HandleItem.ofPointer
  dsimp only
  rw [hcount, bind_some, hdrop]

omit [DecidableEq P] in
/-- All handles of a list of slots can be closed if each of them holds a reference. -/
theorem closeSlots_spec (slots : List Nat) (hle : ∀ o, (refs slots o : Int) ≤ s.references o) :
    ∃ s', closeSlots slots s = some s' ∧ Shifted s s' ∅ fun o => -(refs slots o : Int) := by
  induction slots generalizing s with
  | nil => exact ⟨s, rfl, (Shifted.refl s).congr (Set.Subset.refl _) fun _ => rfl⟩
  | cons x slots ih =>
    rw [closeSlots]
    by_cases hx : x = 0
    · subst hx
      rw [if_pos rfl]
      simp only [refs_zero] at hle ⊢
      exact ih hle
    · rw [if_neg hx]
      have hp : ∀ o, (refs (x :: slots) o : Int) =
          refs slots o + (Pi.single (x / 8) 1 : Nat → Int) o := by
        intro o
        rw [refs_cons, Int.natCast_add, refs_singleton_eq hx]
      have hpos : 0 < s.references (x / 8) := by
        have := hle (x / 8)
        rw [hp, Pi.single_eq_same] at this
        omega
      obtain ⟨s₁, hc, h₁⟩ := obpCloseHandle_spec hpos
      have hng : ∀ o, (Pi.single (x / 8) (-1) : Nat → Int) o =
          -(Pi.single (x / 8) 1 : Nat → Int) o := by
        intro o
        by_cases ho : o = x / 8
        · rw [ho, Pi.single_eq_same, Pi.single_eq_same]
        · rw [Pi.single_eq_of_ne ho, Pi.single_eq_of_ne ho, Int.neg_zero]
      obtain ⟨s₂, hrs, h₂⟩ := ih (s := s₁) fun o => by
        have := hle o
        rw [hp] at this
        rw [h₁.references, hng]
        omega
      refine ⟨s₂, by rw [hc, bind_some, hrs], (h₁.trans h₂).congr (by simp) fun o => ?_⟩
      rw [Pi.add_apply, hng, hp]
      omega

/-! ## Duplicated tables -/

/-- What the `Duplicate` methods answer from slot `i` on: new objects, each only once. -/
structure FreshFrom (s : HandleSystem P) (answer : Nat → DuplicateAnswer) (i : Nat) : Prop where
  absent : ∀ j o type, i ≤ j → answer j = some (o, type) → o ≠ 0 ∧ s.object o = none
  once : ∀ j k o type type', answer j = some (o, type) → answer k = some (o, type') → j = k

/-- The objects that they make. -/
def madeFrom (answer : Nat → DuplicateAnswer) (i : Nat) : Set Nat :=
  {o | ∃ j type, i ≤ j ∧ answer j = some (o, type)}

omit [DecidableEq P] in
theorem FreshFrom.next {ans : Nat → DuplicateAnswer} {i : Nat} (h : s.FreshFrom ans i)
    (hs : ∀ o, (∀ type, ans i ≠ some (o, type)) → s.object o = none → s'.object o = none) :
    s'.FreshFrom ans (i + 1) := by
  refine ⟨fun j o type hj ha => ?_, h.once⟩
  obtain ⟨hne, hnn⟩ := h.absent j o type (by omega) ha
  refine ⟨hne, hs o (fun type' hi => ?_) hnn⟩
  have := h.once _ _ _ _ _ hi ha
  omega

omit [DecidableEq P] in
theorem obpDuplicateHandle_spec (or : OpenReason) (ans : DuplicateAnswer) (hx : x ≠ 0)
    (hlv : (s.object (x / 8)).isSome)
    (hfr : ∀ o type, ans = some (o, type) → o ≠ 0 ∧ s.object o = none) :
    ∃ s' y, s.obpDuplicateHandle or ans x = some (s', y) ∧
      Shifted s s' {o | ∃ type, ans = some (o, type)} (fun o => refs [y] o) ∧
      ∀ o, x / 8 ≠ o → (∀ type, ans ≠ some (o, type)) → refs [y] o = 0 := by
  obtain ⟨h, ho⟩ := isSome_iff_exists.1 hlv
  have hb : (HandleItem.ofPointer x).addressBits = x / 8 := rfl
  unfold obpDuplicateHandle
  by_cases hsk : (HandleItem.ofPointer x).inherit = false ∧ or = .inheritHandle
  · rw [if_pos hsk]
    exact ⟨s, 0, rfl, (Shifted.refl s).congr (Set.empty_subset _) fun o => by rw [refs_zero]; rfl,
      fun o _ _ => refs_zero [] o⟩
  · rw [if_neg hsk, hb, ho, bind_some]
    cases ha : (if (HandleItem.ofPointer x).duplicate = true ∧ or = .duplicateHandle ∧
        h.type.hasDuplicate = true then ans else none) with
    | none =>
      -- another entry for the same object
      obtain ⟨s₁, hrf, h₁⟩ := obReferenceObjectByPointer_spec hlv
      obtain ⟨s₂, hcount, h₂⟩ := addHandleCount_spec (h₁.live _ hlv) 1
      refine ⟨s₂, x, ?_, (h₁.trans h₂).congr (by simp) fun o => ?_, fun o ho' _ => ?_⟩
      · dsimp only
        rw [hrf, bind_some, hcount, map_some]
      · rw [Pi.add_apply, Pi.zero_apply, Int.add_zero, refs_singleton_eq hx]
      · rw [refs_singleton hx, if_neg ho']
    | some made =>
      obtain ⟨o, type⟩ := made
      have hgiven : ans = some (o, type) := by
        split at ha
        · exact ha
        · cases ha
      obtain ⟨hne, hnn⟩ := hfr o type hgiven
      obtain ⟨s₁, hmk, h₁, -⟩ := obpAllocateObject_spec type hne hnn
      obtain ⟨s₂, hcount, h₂⟩ := addHandleCount_spec (h₁.live _ hlv) 1
      have hp : ({ HandleItem.ofPointer x with addressBits := o } : HandleItem).pointer ≠ 0 :=
        pointer_ne_zero hne
      have hw : ({ HandleItem.ofPointer x with addressBits := o } : HandleItem).pointer / 8 = o :=
        addressBits_pointer _
      refine ⟨s₂, ({ HandleItem.ofPointer x with addressBits := o } : HandleItem).pointer, ?_,
        (h₁.trans h₂).congr ?_ fun o' => ?_, fun o' _ ho' => ?_⟩
      · dsimp only
        rw [hmk, bind_some, hcount, map_some]
      · intro o' ho'
        rw [Set.union_empty, Set.mem_singleton_iff] at ho'
        exact ⟨type, ho' ▸ hgiven⟩
      · rw [Pi.add_apply, Pi.zero_apply, Int.add_zero, refs_singleton_eq hp, hw]
      · rw [refs_singleton hp, hw, if_neg]
        rintro rfl
        exact ho' type hgiven

omit [DecidableEq P] in
/-- The loop of the duplication comes back, with a reference for every entry of the new table. -/
theorem duplicateLoop_spec (or : OpenReason) {ans : Nat → DuplicateAnswer}
    {rou i : Nat} {made : HandleTable} (ht : t.Sound) (hpos : 0 < t.capacity) (hmd : made.Ok)
    (hc : made.capacity = t.capacity) (hmx : made.maxIndex ≤ i)
    (hfr : ∀ j, i ≤ j → made.entry j = none) (hrn : i + rou ≤ t.maxIndex + 1)
    (hlv : ∀ j x, t.entry j = some x → (s.object (x / 8)).isSome)
    (hfs : s.FreshFrom ans i) :
    ∃ r, duplicateLoop or ans t rou i made s = some r ∧ Shifted s r.1 (madeFrom ans i)
        (fun o => (refs r.2.handleMap o : Int) - refs made.handleMap o) ∧
      r.2.Ok ∧ made.SameKind r.2 ∧
      ∀ o, o ∉ madeFrom ans i → refs t.handleMap o = 0 →
        refs r.2.handleMap o = refs made.handleMap o := by
  induction rou generalizing i made s with
  | zero =>
    refine ⟨(s, made), rfl, (Shifted.refl s).congr (Set.empty_subset _) fun o => ?_, hmd,
      .refl made, fun _ _ _ => rfl⟩
    rw [Int.sub_self]
    rfl
  | succ rou ih =>
    have hi : i < t.capacity := by
      have := ht.max
      omega
    obtain ⟨x, hgt⟩ := ht.entry_of_lt hi
    rw [duplicateLoop, hgt]
    dsimp only
    have hrs : madeFrom ans (i + 1) ⊆ madeFrom ans i := by
      rintro o ⟨j, type, hj, ha⟩
      exact ⟨j, type, by omega, ha⟩
    by_cases hx : x = 0
    · rw [if_pos hx]
      obtain ⟨r, hp, hh, hok, hkn, hother⟩ := ih hmd hc (by omega)
        (fun j hj => hfr j (by omega)) (by omega) hlv
        (hfs.next fun _ _ hnn => hnn)
      exact ⟨r, hp, hh.congr hrs fun _ => rfl, hok, hkn, fun o ho => hother o fun hme => ho (hrs hme)⟩
    · have hil : i < made.handleMap.length := by
        rw [hmd.length, hc]
        exact hi
      rw [if_neg hx, if_pos hil]
      obtain ⟨s₁, y, hdp, h₁, hsm⟩ := obpDuplicateHandle_spec or (ans i) hx
        (hlv i x (HandleTable.entry_eq_some.2 ⟨hgt, hx⟩))
        fun o type => hfs.absent i o type le_rfl
      have hst : ({ made with
          handleMap := made.handleMap.set i y
          maxIndex := if y = 0 then made.maxIndex else i } : HandleTable).entry =
            update made.entry i (if y = 0 then none else some y) :=
        HandleTable.entry_set hil rfl
      obtain ⟨r, hp, hh, hok, hkn, hother⟩ := ih (hmd.setSlot (hc ▸ hi) hmx) hc
        (by dsimp only; split <;> omega) (fun j hj => by
          rw [hst, update_of_ne (by omega)]
          exact hfr j (by omega)) (by omega) (fun j x hj => h₁.live _ (hlv j x hj))
        (hfs.next fun o ho => h₁.absent o fun hme => by
          obtain ⟨type, ha⟩ := hme
          exact ho type ha)
      refine ⟨r, by rw [hdp, bind_some, hp], (h₁.trans hh).congr ?_ fun o => ?_, hok,
        ⟨hkn.growBy, hkn.initialSize, hkn.limit⟩, fun o ho hz => ?_⟩
      · rintro o (⟨type, ha⟩ | ho)
        · exact ⟨i, type, le_rfl, ha⟩
        · exact hrs ho
      · rw [Pi.add_apply, refs_set_free hil (hfr i le_rfl), Int.natCast_add]
        omega
      · have hne : x / 8 ≠ o := by
          rintro rfl
          have := refs_pos hgt hx
          omega
        rw [hother o (fun hme => ho (hrs hme)) hz, refs_set_free hil (hfr i le_rfl),
          hsm o hne fun type ha => ho ⟨i, type, le_rfl, ha⟩, Nat.add_zero]

/-! ## Calls -/

theorem EntriesHeld.live (h : s.EntriesHeld) (hp : s.tables.lookup p = some t) {j : Nat}
    (hj : t.entry j = some x) : (s.object (x / 8)).isSome := by
  refine live_of_references ?_
  obtain ⟨hgt, hx⟩ := HandleTable.entry_eq_some.1 hj
  have hpos := refs_pos hgt hx
  have hle := refs_le_entries hp (x / 8)
  have := h (x / 8)
  omega

/-- `ObDuplicateHandleTable` leaves everything as it was, or makes a table for which it has taken all
the references. -/
theorem obDuplicateHandleTable_spec (or : OpenReason) {ans : Nat → DuplicateAnswer}
    (hp : s.tables.lookup p = some t) (ht : t.Sound) (hpos : 0 < t.capacity) (hh : s.EntriesHeld)
    (hfr : s.FreshFrom ans 0) (tr mr rr : Bool) :
    (¬ t.CanDuplicate tr mr rr ∧ ∃ st, st ≠ .success ∧ s.obDuplicateHandleTable q p or ans tr mr rr =
        some (s, st)) ∨
    (t.CanDuplicate tr mr rr ∧ ∃ s₁ made, s.obDuplicateHandleTable q p or ans tr mr rr =
        some ({ s₁ with tables := s₁.tables.insert q made }, .success) ∧
      Shifted s s₁ (madeFrom ans 0) (fun o => refs made.handleMap o) ∧ made.Sound ∧
      t.SameKind made ∧
      ∀ o, o ∉ madeFrom ans 0 → refs t.handleMap o = 0 → refs made.handleMap o = 0) := by
  unfold obDuplicateHandleTable
  rw [hp, bind_some]
  rcases HandleTable.inherit_spec ht tr mr rr with
    ⟨hnt, ⟨st, hc, hfl⟩ | ⟨new, new', st, hc, hrs, hfl⟩⟩ |
    ⟨hcn, new, new', hc, hrs, hok, hcp, hx, hkn, he⟩
  · rw [hc]
    exact .inl ⟨hnt, st, hfl, rfl⟩
  · rw [hc]
    dsimp only
    rw [hrs]
    refine .inl ⟨hnt, st, hfl, ?_⟩
    cases st with
    | success => exact absurd rfl hfl
    | _ => rfl
  · right
    obtain ⟨r, hlp, hsh, hok', hkn', hother⟩ := duplicateLoop_spec or ht hpos
      hok hcp (Nat.le_of_eq hx) (fun j _ => he j) (Nat.le_of_eq (Nat.zero_add _))
      (fun j x hj => hh.live hp hj) hfr
    refine ⟨hcn, r.1, r.2, ?_, hsh.congr (Set.Subset.refl _) fun o => ?_, ?_, hkn.trans hkn',
      fun o ho hz => ?_⟩
    · rw [hc]
      dsimp only
      rw [hrs]
      dsimp only
      rw [if_pos hcp, hlp, map_some]
    · rw [refs_empty he]
      exact Int.sub_zero _
    · exact ht.of_ok hok' (hkn.trans hkn')
    · rw [hother o ho hz, refs_empty he]

/-- `ObKillHandleTable` drops the references of the table's entries. -/
theorem obKillHandleTable_spec (hp : s.tables.lookup p = some t)
    (hle : ∀ o, (refs t.handleMap o : Int) ≤ s.references o) :
    ∃ s₁, s.obKillHandleTable p = some { s₁ with tables := s₁.tables.erase p } ∧
      Shifted s s₁ ∅ fun o => -(refs t.handleMap o : Int) := by
  obtain ⟨s₁, hc, hh⟩ := closeSlots_spec t.handleMap hle
  refine ⟨s₁, ?_, hh⟩
  rw [obKillHandleTable, hp, bind_some, hc, map_some]

/-- `ObpInsertObject` takes a reference for its entry, and none if the table has no room. -/
theorem obpInsertObject_spec (hp : s.tables.lookup p = some t) (ht : t.Ok) (hft : t.GrowthFits)
    (ho : o ≠ 0) (hh : 0 < s.references o) (ni dof room : Bool) :
    (¬ t.Admits room ∧ ∃ s₁ st, s.obpInsertObject p o ni dof room =
        some ({ s₁ with tables := s₁.tables.insert p t }, .error st) ∧ Shifted s s₁ ∅ 0) ∨
    (t.Admits room ∧ ∃ s₁ t' i, s.obpInsertObject p o ni dof room =
        some ({ s₁ with tables := s₁.tables.insert p t' }, .ok (indexToHandle i)) ∧
      Shifted s s₁ ∅ (Pi.single o 1) ∧
      t.Placed i (HandleItem.pointer ⟨!ni, dof, o⟩) t' ∧ t.SameKind t') := by
  have hlv := live_of_references hh
  obtain ⟨s₁, hrf, h₁⟩ := obReferenceObjectByPointer_spec hlv
  have hpt : HandleItem.pointer ⟨!ni, dof, o⟩ ≠ 0 := pointer_ne_zero ho
  unfold obpInsertObject
  rw [hp, bind_some, hrf, bind_some]
  rcases HandleTable.exCreateHandle_spec ht hpt hft room with
    ⟨hnt, st, -, hc⟩ | ⟨ha, t', i, hc, hpl, hkn⟩
  · have hh₁ : 0 < s₁.references o := by
      rw [h₁.references, Pi.single_eq_same]
      omega
    obtain ⟨s₂, hdrop, h₂⟩ := obDereferenceObject_spec hh₁
    refine .inl ⟨hnt, s₂, st, ?_, (h₁.trans h₂).congr (by simp) fun o' => ?_⟩
    · dsimp only
      rw [hc]
      dsimp only
      rw [hdrop, map_some]
    · rw [Pi.add_apply]
      by_cases he : o' = o
      · rw [he, Pi.single_eq_same, Pi.single_eq_same]
        rfl
      · rw [Pi.single_eq_of_ne he, Pi.single_eq_of_ne he]
        rfl
  · obtain ⟨s₂, hcount, h₂⟩ := addHandleCount_spec (h₁.live o hlv) 1
    refine .inr ⟨ha, s₂, t', i, ?_, (h₁.trans h₂).congr (by simp) fun o' => ?_, hpl, hkn⟩
    · dsimp only
      rw [hc]
      dsimp only
      rw [hcount, map_some]
    · rw [Pi.add_apply, Pi.zero_apply, Int.add_zero]

end HandleSystem

end Boron.Ob
