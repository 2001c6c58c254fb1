import Boron.Mm.Override

/-! # References to mappable objects (`mm/overlay.c`, `mm/vad.c`)

Three kinds of holders have references to a mappable object: whoever looked it up or created it, the
VADs that map it, and the overlays that lie over it. `Objects` has the counts and the overlays that
are alive, and `excess` is what is left of a count when the VADs and the overlays have theirs. Taking
and dropping references changes the excess of one object, also where an overlay dies; carving VADs out
of an address range changes none. -/

namespace Boron.Mm

open Function List Option

/-! ## Objects -/

/-- The pointer counts, and the overlays that are alive, each with its parent. -/
structure Objects where
  count : Nat → Nat
  overlays : List (Nat × Nat)

namespace Objects

def obReferenceObjectByPointer (s : Objects) (o : Nat) : Objects :=
  { s with count := update s.count o (s.count o + 1) }

/-- `ObDereferenceObject`, with at most `fuel` overlays to delete. `MmDeleteOverlayObject` drops the
reference to the parent. -/
def dereferenceWithin : Nat → Objects → Nat → Objects
  | 0, s, o => { s with count := update s.count o (s.count o - 1) }
  | fuel + 1, s, o =>
    let count := update s.count o (s.count o - 1)
    if s.count o - 1 ≠ 0 then { s with count := count }
    else
      match s.overlays.lookup o with
      | none => { s with count := count }
      | some parent => dereferenceWithin fuel ⟨count, s.overlays.erase (o, parent)⟩ parent

def obDereferenceObject (s : Objects) (o : Nat) : Objects :=
  dereferenceWithin s.overlays.length s o

/-- `ObReferenceObjectByPointer(Vad->MappedObject)`, if the VAD maps an object. -/
def referenceMapped (s : Objects) (vad : Vad) : Objects :=
  vad.mappedObject.elim s s.obReferenceObjectByPointer

/-- The end of `MiCleanUpVad`. -/
def dereferenceMapped (s : Objects) (vad : Vad) : Objects :=
  vad.mappedObject.elim s s.obDereferenceObject

/-- `MmCreateOverlayObject`, for the object that `ObCreateObject` returned. -/
def mmCreateOverlayObject (s : Objects) (overlay parent : Nat) : Objects :=
  obReferenceObjectByPointer
    ⟨update s.count overlay 1, (overlay, parent) :: s.overlays⟩ parent

/-- What the VAD loop of `MmOverrideAddressRange` does to the references. -/
def overrideVads (startVa n : Nat) : List Vad → Objects → Objects
  | [], s => s
  | vad :: right, s =>
    let endVa := addW startVa (mulW n pageSize)
    let vadVa := vad.node.startVa
    let vadEnd := vad.node.endVa
    if endVa ≤ vadVa ∨ vadEnd ≤ startVa then overrideVads startVa n right s
    else if startVa ≤ vadVa ∧ vadEnd ≤ endVa then
      overrideVads startVa n right (s.dereferenceMapped vad)
    else if vadVa < startVa ∧ endVa < vadEnd then s.referenceMapped vad
    else overrideVads startVa n right s

end Objects

/-- The references to an object that VADs and overlays hold. -/
def held (vads : List Vad) (s : Objects) (o : Nat) : Nat :=
  vads.countP (fun v => decide (v.mappedObject = some o)) +
    s.overlays.countP fun x => decide (x.2 = o)

/-- The other references. -/
def excess (vads : List Vad) (s : Objects) (o : Nat) : Int := s.count o - held vads s o

/-! ## Changes of the excess -/

section

variable {vads l r : List Vad} {s : Objects} {o : Nat} {v w : Vad}

theorem excess_congr (h : v.mappedObject = w.mappedObject) :
    excess (l ++ v :: r) s = excess (l ++ w :: r) s := by
  funext x
  simp only [excess, held, countP_append, countP_cons, h]

theorem excess_remove (o : Nat) : excess (l ++ r) s o =
    excess (l ++ v :: r) s o + if v.mappedObject = some o then 1 else 0 := by
  simp only [excess, held, countP_append, countP_cons, decide_eq_true_eq]
  split <;> omega

theorem count_reference (x : Nat) :
    (s.obReferenceObjectByPointer o).count x = s.count x + if x = o then 1 else 0 := by
  rw [Objects.obReferenceObjectByPointer]
  show update s.count o (s.count o + 1) x = _
  by_cases hx : x = o
  · rw [hx, update_self, if_pos rfl]
  · rw [update_of_ne hx, if_neg hx, Nat.add_zero]

theorem excess_reference (x : Nat) :
    excess vads (s.obReferenceObjectByPointer o) x = excess vads s x + if x = o then 1 else 0 := by
  simp only [excess, held, Objects.obReferenceObjectByPointer, update_apply]
  split
  · next h =>
      subst h
      omega
  · omega

/-- A count goes down, and the object stays. -/
theorem excess_lower (hon : 1 ≤ excess vads s o) (x : Nat) :
    excess vads ⟨update s.count o (s.count o - 1), s.overlays⟩ x =
      excess vads s x - if x = o then 1 else 0 := by
  simp only [excess, held, update_apply] at hon ⊢
  split
  · next h =>
      subst h
      omega
  · omega

/-- A count goes down, and the object dies: an overlay, which holds its parent no more. -/
theorem excess_delete {par : Nat} (hme : (o, par) ∈ s.overlays) (hon : 1 ≤ excess vads s o) (x : Nat) :
    excess vads ⟨update s.count o (s.count o - 1), s.overlays.erase (o, par)⟩ x =
      (excess vads s x - if x = o then 1 else 0) + if x = par then 1 else 0 := by
  have hh : s.overlays.countP (fun p => decide (p.2 = x)) =
      (s.overlays.erase (o, par)).countP (fun p => decide (p.2 = x)) +
        if x = par then 1 else 0 := by
    rw [(perm_cons_erase hme).countP_eq, countP_cons]
    simp [eq_comm]
  have hw := excess_lower hon x
  simp only [excess, held, hh] at hw ⊢
  by_cases hp : x = par
  · simp only [if_pos hp] at hw ⊢
    omega
  · simp only [if_neg hp] at hw ⊢
    omega

/-- Dropping a reference that is there, and those that overlays drop when they die. -/
theorem excess_dereferenceWithin (fuel : Nat) (hfl : s.overlays.length ≤ fuel)
    (h : ∀ x, (if x = o then 1 else 0) ≤ excess vads s x) (x : Nat) :
    excess vads (s.dereferenceWithin fuel o) x = excess vads s x - if x = o then 1 else 0 := by
  induction fuel generalizing s o with
  | zero => exact excess_lower (by simpa using h o) x
  | succ fuel ih =>
    have hon : 1 ≤ excess vads s o := by simpa using h o
    rw [Objects.dereferenceWithin]
    by_cases hls : s.count o - 1 ≠ 0
    · rw [if_pos hls]
      exact excess_lower hon x
    · rw [if_neg hls]
      cases hlk : s.overlays.lookup o with
      | none => exact excess_lower hon x
      | some par =>
        have hme : (o, par) ∈ s.overlays := by
          obtain ⟨l₁, l₂, heq, -⟩ := lookup_eq_some_iff.1 hlk
          rw [heq]
          exact mem_append_right _ mem_cons_self
        have hlength := (perm_cons_erase hme).length_eq
        rw [length_cons] at hlength
        have hde := excess_delete hme hon
        refine (ih ?_ ?_).trans ?_
        · show (s.overlays.erase (o, par)).length ≤ fuel
          omega
        · intro y
          have hy := h y
          rw [hde]
          omega
        · rw [hde]
          omega

theorem excess_dereference (h : ∀ x, (if x = o then 1 else 0) ≤ excess vads s x) (x : Nat) :
    excess vads (s.obDereferenceObject o) x = excess vads s x - if x = o then 1 else 0 :=
  excess_dereferenceWithin _ (Nat.le_refl _) h x

theorem excess_create {ove par : Nat} (hfr : s.count ove = 0) (x : Nat) :
    excess vads (s.mmCreateOverlayObject ove par) x = excess vads s x + if x = ove then 1 else 0 := by
  rw [Objects.mmCreateOverlayObject, excess_reference]
  simp only [excess, held, countP_cons, decide_eq_true_eq, update_apply, eq_comm (a := par)]
  by_cases hx : x = ove
  · subst hx
    rw [if_pos rfl, if_pos rfl, hfr]
    split <;> omega
  · rw [if_neg hx, if_neg hx]
    split <;> omega

theorem excess_referenceMapped (x : Nat) : excess vads (s.referenceMapped v) x =
    excess vads s x + if v.mappedObject = some x then 1 else 0 := by
  rw [Objects.referenceMapped]
  cases v.mappedObject with
  | none => simp
  | some o => simp [excess_reference, eq_comm]

theorem excess_dereferenceMapped
    (h : ∀ x, (if v.mappedObject = some x then 1 else 0) ≤ excess vads s x) (x : Nat) :
    excess vads (s.dereferenceMapped v) x =
      excess vads s x - if v.mappedObject = some x then 1 else 0 := by
  rw [Objects.dereferenceMapped]
  cases hv : v.mappedObject with
  | none => simp
  | some o =>
    simp only [hv, some.injEq, eq_comm (a := o)] at h ⊢
    exact excess_dereference h x

/-- A VAD that goes takes its reference with it. -/
theorem excess_release (h : ∀ x, 0 ≤ excess (l ++ v :: r) s x) (x : Nat) :
    excess (l ++ r) (s.dereferenceMapped v) x = excess (l ++ v :: r) s x := by
  rw [excess_dereferenceMapped, excess_remove (v := v)]
  · omega
  · intro y
    have hy := h y
    rw [excess_remove (v := v)]
    omega

/-- The VAD loop of `MmOverrideAddressRange` keeps the references of VADs that go, stay and are cut. -/
theorem excess_overrideVads {t : Tables} {sv n : Nat} {left right vads' : List Vad}
    {heap heap' : HeapTree} {log log' : List Nat} {s : Objects}
    (hrn : overrideVads t sv n left right heap log = some (vads', heap', log'))
    (hln : Lined Vad.startVa Vad.limit right) (hb : ∀ v ∈ right, v.node.endVa = v.limit)
    (h : ∀ x, 0 ≤ excess (left.reverse ++ right) s x) (x : Nat) :
    excess vads' (s.overrideVads sv n right) x = excess (left.reverse ++ right) s x := by
  induction right generalizing left heap log s with
  | nil =>
    simp only [overrideVads, some.injEq, Prod.mk.injEq] at hrn
    rw [← hrn.1, Objects.overrideVads, append_nil]
  | cons v right ih =>
    obtain ⟨hpos, hrg, hbf⟩ := Lined.cons_iff.1 hln
    have he := hb v mem_cons_self
    have hb' : ∀ w ∈ right, w.node.endVa = w.limit :=
      fun w hw => hb w (mem_cons_of_mem _ hw)
    have hps : ∀ w : Vad, (w :: left).reverse ++ right = left.reverse ++ w :: right := by
      intro w
      simp
    -- a VAD that is cut maps what it has mapped
    have hct : ∀ w : Vad, w.mappedObject = v.mappedObject →
        excess ((w :: left).reverse ++ right) s = excess (left.reverse ++ v :: right) s := by
      intro w hw
      rw [hps]
      exact excess_congr hw
    have hst : ∀ (w : Vad) (log : List Nat),
        overrideVads t sv n (w :: left) right heap log = some (vads', heap', log') →
        w.mappedObject = v.mappedObject →
          excess vads' (s.overrideVads sv n right) x = excess (left.reverse ++ v :: right) s x := by
      intro w log hrn hw
      rw [ih hrn hrg hb' (by rw [hct w hw]; exact h), hct w hw]
    rw [overrideVads] at hrn
    rw [Objects.overrideVads]
    dsimp only at hrn ⊢
    by_cases hc : addW sv (mulW n pageSize) ≤ v.node.startVa ∨ v.node.endVa ≤ sv
    · rw [if_pos hc] at hrn ⊢
      exact hst _ _ hrn rfl
    rw [if_neg hc] at hrn ⊢
    by_cases hh : sv ≤ v.node.startVa ∧ v.node.endVa ≤ addW sv (mulW n pageSize)
    · rw [if_pos hh] at hrn ⊢
      cases hrl : miReleaseVad t heap
          (miDecommitVad t v v.node.startVa v.node.size false log).2 v.node with
      | none =>
        rw [hrl] at hrn
        cases hrn
      | some freed =>
        rw [hrl] at hrn
        have hbc := excess_release h
        rw [ih hrn hrg hb' fun y => by rw [hbc]; exact h y, hbc]
    rw [if_neg hh] at hrn ⊢
    by_cases hp : v.node.startVa < sv ∧ addW sv (mulW n pageSize) < v.node.endVa
    · rw [if_pos hp] at hrn ⊢
      rw [not_or, not_le, not_le] at hc
      generalize hvd1 : ({ v with
        node := ⟨v.node.startVa, subW sv v.node.startVa / pageSize⟩ } : Vad) = vad1 at hrn
      generalize hvd2 : ({ v with
        node := ⟨addW sv (mulW n pageSize), subW v.node.endVa (addW sv (mulW n pageSize)) / pageSize⟩
        sectionOffset :=
          if v.mappedObject.isSome then
            addW v.sectionOffset (subW (addW sv (mulW n pageSize)) v.node.startVa)
          else 0 } : Vad) = vad2 at hrn
      have hy1 : vad1.startVa = v.node.startVa := by rw [← hvd1]; rfl
      have hy2 : vad2.startVa = addW sv (mulW n pageSize) := by rw [← hvd2]; rfl
      have hob1 : vad1.mappedObject = v.mappedObject := by rw [← hvd1]
      have hob2 : vad2.mappedObject = v.mappedObject := by rw [← hvd2]
      have hin : Cursor.insertItem Vad.startVa ⟨left, vad1, right⟩ vad2
          = some ⟨left, vad1, vad2 :: right⟩ := by
        refine Cursor.insertItem_right (by rw [hy1, hy2]; exact hc.1) fun w hw => ?_
        rw [hy2]
        exact (hp.2.trans_eq he).trans_le (hbf w hw)
      rw [hin] at hrn
      simp only [getD_some, Cursor.toTree, some.injEq, Prod.mk.injEq] at hrn
      have hsn := excess_remove (l := left.reverse ++ [vad1]) (r := right) (s := s) (v := vad2) x
      rw [append_assoc, append_assoc, singleton_append, singleton_append, hob2] at hsn
      rw [← hrn.1, excess_referenceMapped, ← hsn, excess_congr hob1]
    rw [if_neg hp] at hrn ⊢
    by_cases hlw : v.node.startVa < sv ∧ v.node.endVa ≤ addW sv (mulW n pageSize)
    · rw [if_pos hlw] at hrn
      exact hst _ _ hrn rfl
    rw [if_neg hlw] at hrn
    by_cases hu : sv ≤ v.node.startVa ∧ addW sv (mulW n pageSize) < v.node.endVa
    · rw [if_pos hu] at hrn
      exact hst _ _ hrn rfl
    · rw [if_neg hu] at hrn
      cases hrn

end

end Boron.Mm
