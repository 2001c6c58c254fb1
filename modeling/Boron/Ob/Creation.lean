import Boron.Ob.Directory
import Boron.Ob.PathReferences

/-! # A new object, and its removal

`Adds` says what it means for an object to be created, in a directory or in none, and that unlinking
and dropping it brings the objects back to what they were. -/

namespace Boron.Ob

open Function List Option

variable {O : Type} [DecidableEq O]

namespace Namespace

open ObSystem (object_set directory_set modify_present)

variable {ns : Namespace O} {o dir : O} {x : Object O}

/-! ## Sets of objects -/

theorem set_set (ns : Namespace O) (o : O) (y z : Option (Object O)) :
    (ns.set o y).set o z = ns.set o z := by
  unfold set
  simp only [update_idem]

variable {p : O}

theorem set_comm (ns : Namespace O) {o : O} (h : o ≠ p) (y z : Option (Object O)) :
    (ns.set o y).set p z = (ns.set p z).set o y := by
  unfold set
  simp only [update_comm h]

theorem set_eq_self (h : ns.object o = some x) : ns.set o (some x) = ns := by
  unfold set
  rw [← h, update_eq_self]

theorem set_none_eq_self (h : ns.object o = none) : ns.set o none = ns := by
  unfold set
  rw [← h, update_eq_self]

theorem object_set_self (ns : Namespace O) (o : O) (y : Option (Object O)) :
    (ns.set o y).object o = y := update_self ..

theorem object_set_of_ne (ns : Namespace O) {o : O} (h : p ≠ o) (y : Option (Object O)) :
    (ns.set o y).object p = ns.object p := update_of_ne h ..

theorem modify_set (ns : Namespace O) (o : O) (x : Object O) (f : Object O → Object O) :
    (ns.set o (some x)).modify o f = ns.set o (some (f x)) := by
  rw [modify_present (object_set_self ..), set_set]

theorem modify_set_of_ne (ns : Namespace O) {o : O} (h : p ≠ o) (y : Option (Object O))
    (hx : ns.object p = some x) (f : Object O → Object O) :
    (ns.set o y).modify p f = (ns.set p (some (f x))).set o y := by
  rw [modify_present ((object_set_of_ne ns h y).trans hx), set_comm ns (Ne.symm h)]

/-! ## Dropping a reference -/

/-- Dropping a reference that is not the last one. -/
theorem dereference_of_stays (hx : ns.object o = some x)
    (h : 1 < x.pointerCount ∨ 0 < x.pointerCount ∧ x.permanent = true) :
    ns.obDereferenceObject o false
      = some (ns.set o (some { x with pointerCount := x.pointerCount - 1 })) := by
  have hpos : x.pointerCount ≠ 0 := by omega
  have hst : x.pointerCount ≠ 1 ∨ x.permanent = true := by
    rcases h with h | ⟨-, h⟩
    · exact .inl (by omega)
    · exact .inr h
  unfold obDereferenceObject
  rw [hx, bind_some, if_neg hpos]
  rw [if_pos hst, modify_present hx]

theorem dereference_last (hx : ns.object o = some x) (hcount : x.pointerCount = 1)
    (hp : x.permanent = false) :
    ns.obDereferenceObject o false = some (ns.set o none) := by
  unfold obDereferenceObject
  rw [hx, bind_some, if_neg (by omega)]
  rw [if_neg (by simp [hcount, hp]), if_neg (by simp), modify_present hx]
  unfold obpDeleteObject
  rw [object_set_self, any_some, if_neg (by simp [hp]), set_set]

theorem reference_dereference (hx : ns.object o = some x) (hpos : 0 < x.pointerCount) :
    (ns.obReferenceObjectByPointer o).obDereferenceObject o false = some ns := by
  unfold obReferenceObjectByPointer
  rw [modify_present hx, dereference_of_stays (object_set_self ..) (.inl (by dsimp only; omega)),
    set_set]
  rw [Nat.add_sub_cancel, set_eq_self hx]

/-! ## A new object -/

/-- `o` is new in `ns'`, with one reference, and listed in `dir` if there is one. -/
structure Adds (ns ns' : Namespace O) (o : O) (dir : Option O) : Prop where
  object : ∃ x, ns'.object o = some x ∧ x.pointerCount = 1 ∧ x.permanent = false
  keeps : ∀ p x, p ≠ o → ns.object p = some x → ∃ y, ns'.object p = some y ∧
    x.pointerCount ≤ y.pointerCount ∧ y.permanent = x.permanent
  references : ∀ p, p ≠ o → ns'.references p = ns.references p + if dir = some p then 1 else 0
  children : ∀ p, p ≠ o → ns'.children p = ns.children p ++ if dir = some p then [o] else []
  undo : ∃ status ns₁, ns'.obUnlinkObject o = some (status, ns₁) ∧
    ns₁.obDereferenceObject o false = some ns

theorem adds_unlinked (hfr : ns.object o = none) (hx : x.pointerCount = 1)
    (hpr : x.permanent = false) (hpa : x.parentDirectory = none) :
    Adds ns (ns.set o (some x)) o none where
  object := ⟨x, object_set_self .., hx, hpr⟩
  keeps p y hp hy := ⟨y, (object_set_of_ne ns hp _).trans hy, le_rfl, rfl⟩
  references p hp := by simp [references, object_set_of_ne ns hp]
  children p hp := by simp [Namespace.children, directory, object_set_of_ne ns hp]
  undo := by
    refine ⟨.notLinked, ns.set o (some x), ?_, ?_⟩
    · unfold obUnlinkObject
      rw [object_set_self, bind_some, hpa]
    · rw [dereference_last (object_set_self ..) hx hpr, set_set, set_none_eq_self hfr]

variable {children : List O} {count : Int}

theorem insertChild_eq {d : Object O} (hdr : dir ≠ o) (hd : ns.object dir = some d) :
    (ns.set o (some x)).insertChild dir o children count
      = (ns.set dir (some { d with
            body := .directory (children ++ [o]) (count + 1)
            pointerCount := d.pointerCount + 1 })).set o
          (some { x with parentDirectory := some dir }) := by
  unfold insertChild obReferenceObjectByPointer
  rw [modify_set_of_ne ns hdr _ hd, modify_set_of_ne _ hdr _ (object_set_self ..), set_set, modify_set]

theorem adds_linked (hfr : ns.object o = none) (hx : x.pointerCount = 1)
    (hpr : x.permanent = false) {d : Object O} (hd : ns.object dir = some d)
    (hst : 0 < d.pointerCount ∨ d.permanent = true)
    (hb : d.body = .directory children count) (hme : o ∉ children) :
    Adds ns ((ns.set o (some x)).insertChild dir o children count) o (some dir) := by
  have hdr : dir ≠ o := by
    rintro rfl
    rw [hfr] at hd
    cases hd
  rw [insertChild_eq hdr hd]
  set d' : Object O :=
    { d with
      body := .directory (children ++ [o]) (count + 1)
      pointerCount := d.pointerCount + 1 } with hd'
  have hother : ∀ p, p ≠ o → p ≠ dir → ((ns.set dir (some d')).set o
      (some { x with parentDirectory := some dir })).object p = ns.object p := by
    intro p hp hpd
    rw [object_set_of_ne _ hp, object_set_of_ne _ hpd]
  have hsl : ((ns.set dir (some d')).set o
      (some { x with parentDirectory := some dir })).object dir = some d' := by
    rw [object_set_of_ne _ hdr, object_set_self]
  constructor
  · exact ⟨_, object_set_self .., hx, hpr⟩
  · intro p y hp hy
    by_cases hpd : p = dir
    · subst hpd
      rw [hd] at hy
      cases hy
      exact ⟨d', hsl, Nat.le_succ _, rfl⟩
    · exact ⟨y, (hother p hp hpd).trans hy, le_rfl, rfl⟩
  · intro p hp
    unfold references
    by_cases hpd : p = dir
    · subst hpd
      rw [hsl, hd]
      simp [hd']
    · rw [hother p hp hpd, if_neg (fun h => hpd (some.inj h).symm), Nat.add_zero]
  · intro p hp
    unfold Namespace.children directory
    by_cases hpd : p = dir
    · subst hpd
      rw [hsl, hd]
      simp [Object.directory, hd', hb]
    · rw [hother p hp hpd, if_neg (fun h => hpd (some.inj h).symm), append_nil]
  · -- taking `o` off the list and dropping its reference on the directory restores the directory
    set x' : Object O := { x with parentDirectory := some dir } with hx'
    have he : (children ++ [o]).erase o = children := by
      rw [erase_append_right _ hme, erase_cons_head, append_nil]
    have hst' : 1 < d.pointerCount + 1 ∨ 0 < d.pointerCount + 1 ∧ d.permanent = true := by
      rcases hst with h | h
      · exact .inl (by omega)
      · exact .inr ⟨by omega, h⟩
    have hc : ((ns.set dir (some d')).set o (some x')).directory dir
        = some (children ++ [o], count + 1) := by
      unfold directory
      rw [hsl]
      rfl
    have hu : ((ns.set dir (some d')).set o (some x')).obUnlinkObject o
        = some (.success, ns.set o (some x')) := by
      unfold obUnlinkObject
      rw [object_set_self, bind_some]
      simp only [hx']
      unfold obpRemoveObjectFromDirectory
      rw [hc, bind_some]
      simp only [mem_append, mem_singleton, or_true, if_true, he]
      rw [modify_set_of_ne _ hdr _ (object_set_self ..), set_set, dereference_of_stays
        ((object_set_of_ne _ hdr _).trans (object_set_self ..)) hst', set_comm _ hdr.symm,
        set_set]
      have hcount : count + 1 - 1 = count := by omega
      simp only [hd', Nat.add_sub_cancel, hcount, ← hb, map_some]
      rw [set_eq_self hd]
    refine ⟨.success, ns.set o (some x'), hu, ?_⟩
    rw [dereference_last (x := x') (object_set_self ..) hx hpr, set_set, set_none_eq_self hfr]

theorem obLinkObject_new (hnm : x.objectName = none) (hp : x.parentDirectory = none) (hdr : dir ≠ o)
    (hdc : ns.directory dir = some (children, count)) (hme : o ∉ children) (name : Name)
    (room : Bool) :
    (ns.set o (some x)).obLinkObject dir o (some name) room = if room then
          if ∀ c ∈ children, ns.objectName c ≠ some name then
            some (.success, (ns.set o (some { x with objectName := some name })).insertChild dir o
              children count)
          else some (.nameCollision, ns.set o (some { x with objectName := some name }))
        else some (.insufficientMemory, ns.set o (some x)) := by
  unfold obLinkObject
  rw [object_set_self, bind_some, hp]
  simp only [isSome_none, Bool.false_eq_true, if_false, nameForLink, hnm, obpAssignName, set_set]
  cases room with
  | false => simp
  | true =>
    have hd : (ns.set o (some { x with objectName := some name })).directory dir
        = some (children, count) := by
      rw [directory_set, if_neg hdr, hdc]
    have hns : ∀ c ∈ children, (ns.set o (some { x with objectName := some name })).objectName c
        = ns.objectName c := by
      intro c hc
      unfold objectName
      rw [object_set_of_ne]
      rintro rfl
      exact hme hc
    simp only [if_true, ne_eq, not_true_eq_false, if_false, hd, map_some]
    have ha : (children.any fun c =>
        (ns.set o (some { x with objectName := some name })).objectName c = some name) = true ↔
          ¬ ∀ c ∈ children, ns.objectName c ≠ some name := by
      simp only [List.any_eq_true, decide_eq_true_eq, ne_eq, not_forall, not_not]
      constructor
      · rintro ⟨c, hc, heq⟩
        exact ⟨c, hc, (hns c hc).symm.trans heq⟩
      · rintro ⟨c, hc, heq⟩
        exact ⟨c, hc, (hns c hc).trans heq⟩
    by_cases hcl : ∀ c ∈ children, ns.objectName c ≠ some name
    · rw [if_neg (fun h => ha.1 h hcl), if_pos hcl, hp]
    · rw [if_pos (ha.2 hcl), if_neg hcl, hp]

/-- How `ObCreateObject` ends once the directory and the name are known: without memory nothing
happens, and an object that cannot be linked stays. -/
theorem createObject_spec (hfr : ns.object o = none) (type : ObjectType) (mem room : Bool)
    (tgt : Option (O × Name))
    (htr : ∀ dir name, tgt = some (dir, name) → ns.Alive dir ∧
      (ns.directory dir).isSome = true ∧ o ∉ ns.children dir) :
    (mem = false ∧
      ns.createObject o type false mem .success tgt room = some (.insufficientMemory, ns)) ∨
    (mem = true ∧ (∀ dir name, tgt = some (dir, name) →
        room = true ∧ ∀ c ∈ ns.children dir, ns.objectName c ≠ some name) ∧
      ∃ ns', ns.createObject o type false mem .success tgt room = some (.success, ns') ∧
        Adds ns ns' o (tgt.map Prod.fst)) ∨
    (mem = true ∧ (∃ dir name, tgt = some (dir, name) ∧
        ¬ (room = true ∧ ∀ c ∈ ns.children dir, ns.objectName c ≠ some name)) ∧
      ∃ st x, ns.createObject o type false mem .success tgt room
        = some (st, ns.set o (some x)) ∧ st ≠ .success) := by
  cases mem with
  | false => exact .inl ⟨rfl, rfl⟩
  | true =>
    cases tgt with
    | none =>
      refine .inr (.inl ⟨rfl, nofun, _, rfl, ?_⟩)
      exact adds_unlinked hfr rfl rfl rfl
    | some tgt =>
      obtain ⟨dir, name⟩ := tgt
      obtain ⟨⟨d, hd, hst⟩, hsm, hme⟩ := htr dir name rfl
      obtain ⟨⟨children, count⟩, hdr⟩ := isSome_iff_exists.1 hsm
      have hh : ns.children dir = children := by simp [Namespace.children, hdr]
      have hdi : dir ≠ o := by
        rintro rfl
        rw [hfr] at hd
        cases hd
      rw [hh] at hme
      have hb : d.body = .directory children count := by
        unfold directory at hdr
        rw [hd, bind_some] at hdr
        unfold Object.directory at hdr
        split at hdr
        · next h =>
            cases hdr
            exact h
        · cases hdr
      have hln := obLinkObject_new (x := ⟨false, none, none, 1, newBody type⟩) rfl rfl hdi
        hdr hme name room
      have hcr : ns.createObject o type false true .success (some (dir, name)) room
          = (ns.set o (some ⟨false, none, none, 1, newBody type⟩)).obLinkObject dir o (some name)
              room := rfl
      rw [hcr, hln]
      by_cases hrm : room = true
      · by_cases hc : ∀ c ∈ children, ns.objectName c ≠ some name
        · rw [if_pos hrm, if_pos hc]
          refine .inr (.inl ⟨rfl, ?_, _, rfl, adds_linked hfr rfl rfl hd hst hb hme⟩)
          rintro dir' name' heq
          cases heq
          rw [hh]
          exact ⟨hrm, hc⟩
        · rw [if_pos hrm, if_neg hc]
          refine .inr (.inr ⟨rfl, ⟨dir, name, rfl, ?_⟩, .nameCollision, _, rfl, by simp⟩)
          rw [hh]
          exact fun h => hc h.2
      · rw [if_neg hrm]
        refine .inr (.inr ⟨rfl, ⟨dir, name, rfl, ?_⟩, .insufficientMemory, _, rfl, by simp⟩)
        exact fun h => hrm h.1

end Namespace

end Boron.Ob
