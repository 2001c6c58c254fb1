import Mathlib.Data.List.Basic
import Boron.Lib.Run
import Boron.Ob.Object

/-! # The integrity of directories

Callers create, link, unlink, look up, reference and drop objects, in any order, and the reaper
deletes what has been queued for it. A path lookup is a sequence of such steps: a reference on the
start, and for each component an entry looked up and the directory dropped.

`held` counts the references that callers have taken and not dropped. A directory is intact when its
list, its count, its children's parents and its reference count agree. `directories_intact` says
that they do in every run in which no linked object is unlinked or loses its last reference: the
code for the first leaves the parent in place, and the code for the second leaves the object on the
list. -/

namespace Boron.Ob

open Function List Option

variable {O : Type} [DecidableEq O]

namespace Namespace

/-- The body of a new object; a directory's callback leaves it empty. -/
def newBody : ObjectType → Body O
  | .directory => .directory [] 0
  | .symbolicLink => .symbolicLink none
  | .file => .file
  | .other type => .other type

/-- `ObCreateObjectCallback` on a normalized directory and name, with whether there is memory, and how
the callback ends. -/
def createObject (ns : Namespace O) (o : O) (type : ObjectType) (permanent memory : Bool)
    (callback : ObStatus) (target : Option (O × Name)) (room : Bool) :
    Option (ObStatus × Namespace O) :=
  if !memory then some (.insufficientMemory, ns)
  else
    let ns := ns.set o (some ⟨permanent, none, none, 1, newBody type⟩)
    if callback ≠ .success then some (callback, ns.set o none)
    else
      match target with
      | none => some (.success, ns)
      | some (dir, name) => ns.obLinkObject dir o (some name) room

/-- The children of an object, if it is a directory. -/
def children (ns : Namespace O) (d : O) : List O := ((ns.directory d).map Prod.fst).getD []

end Namespace

/-! ## Runs -/

/-- The objects, and the references that callers hold. -/
structure ObSystem (O : Type) where
  ns : Namespace O
  held : O → Nat

inductive ObAction (O : Type)
  | create (o : O) (type : ObjectType) (permanent memory : Bool) (callback : ObStatus)
      (target : Option (O × Name)) (room : Bool)
  | link (dir o : O) (name : Option Name) (room : Bool)
  | unlink (o : O)
  | lookUp (dir : O) (path : Name)
  | reference (o : O)
  | dereference (o : O) (highIpl : Bool)
  | reap

namespace ObSystem

/-- A caller now has one more reference to `o`. -/
def take (s : ObSystem O) (o : O) (ns : Namespace O) : ObSystem O :=
  ⟨ns, update s.held o (s.held o + 1)⟩

def step (s : ObSystem O) : ObAction O → Option (ObSystem O)
  | .create o type permanent memory callback target room =>
    (s.ns.createObject o type permanent memory callback target room).map fun (_, ns) =>
      if (ns.object o).isSome then s.take o ns else ⟨ns, s.held⟩
  | .link dir o name room =>
    (s.ns.obLinkObject dir o name room).map fun (_, ns) => ⟨ns, s.held⟩
  | .unlink o => (s.ns.obUnlinkObject o).map fun (_, ns) => ⟨ns, s.held⟩
  | .lookUp dir path =>
    (s.ns.directory dir).map fun (children, _) =>
      match s.ns.obpLookUpDirectoryEntry children path with
      | (none, ns) => ⟨ns, s.held⟩
      | (some (c, _), ns) => s.take c ns
  | .reference o => some (s.take o (s.ns.obReferenceObjectByPointer o))
  | .dereference o highIpl =>
    (s.ns.obDereferenceObject o highIpl).map fun ns =>
      ⟨ns, update s.held o (s.held o - 1)⟩
  | .reap => s.ns.obpReaperTurn.map fun ns => ⟨ns, s.held⟩

/-- A caller may use the object: it holds a reference, or the object is permanent. -/
def Usable (s : ObSystem O) (o : O) : Prop :=
  ∃ h, s.ns.object o = some h ∧ (0 < s.held o ∨ h.permanent = true)

/-- A caller may use the directory. -/
def UsableDirectory (s : ObSystem O) (d : O) : Prop :=
  s.Usable d ∧ (s.ns.directory d).isSome = true

/-- What callers promise: the memory of a new object is free, and they use only what they hold. -/
def Promised (s : ObSystem O) : ObAction O → Prop
  | .create o _ _ _ _ target _ =>
    s.ns.object o = none ∧ ∀ dir name, target = some (dir, name) → s.UsableDirectory dir
  | .link dir o _ _ => s.UsableDirectory dir ∧ s.Usable o
  | .unlink o => s.Usable o
  | .lookUp dir _ => s.UsableDirectory dir
  | .reference o => s.Usable o
  | .dereference o _ => 0 < s.held o
  | .reap => True

/-- The steps that do not reach the defects: no linked object is unlinked, and none loses its last
reference. -/
def Calm (s : ObSystem O) : ObAction O → Prop
  | .unlink o => ∀ h, s.ns.object o = some h → h.parentDirectory = none
  | .dereference o _ => ∀ h, s.ns.object o = some h → h.pointerCount = 1 → h.permanent = false →
    h.parentDirectory = none
  | _ => True

/-! ## Intact directories -/

/-- Lists, counts, parents and references agree. -/
structure Intact (s : ObSystem O) : Prop where
  alive : ∀ d, ∀ c ∈ s.ns.children d, (s.ns.object c).isSome = true
  names : ∀ d, (s.ns.children d).Pairwise fun a b => s.ns.objectName a ≠ s.ns.objectName b
  count : ∀ d children count, s.ns.directory d = some (children, count) → count = children.length
  parent : ∀ o h d, s.ns.object o = some h → (h.parentDirectory = some d ↔ o ∈ s.ns.children d)
  references : ∀ o h, s.ns.object o = some h →
    h.pointerCount = s.held o + (s.ns.children o).length

/-- What every calm step keeps. -/
structure Inv (s : ObSystem O) : Prop where
  linked : ∀ d, ∀ c ∈ s.ns.children d, ∃ h, s.ns.object c = some h ∧ h.parentDirectory = some d ∧
    h.objectName.isSome = true
  listed : ∀ c h d, s.ns.object c = some h → h.parentDirectory = some d → c ∈ s.ns.children d
  names : ∀ d, (s.ns.children d).Pairwise fun a b => s.ns.objectName a ≠ s.ns.objectName b
  count : ∀ d children count, s.ns.directory d = some (children, count) → count = children.length
  references : ∀ o h, s.ns.object o = some h →
    h.pointerCount = s.held o + (s.ns.children o).length
  freed : ∀ o, s.ns.object o = none → s.held o = 0
  reaped : ∀ o ∈ s.ns.reaperList, ∃ h, s.ns.object o = some h ∧ h.pointerCount = 0 ∧
    h.permanent = false ∧ h.parentDirectory = none
  reapedOnce : s.ns.reaperList.Nodup

omit [DecidableEq O] in
theorem Inv.intact {s : ObSystem O} (h : s.Inv) : s.Intact where
  alive d c hc := by
    obtain ⟨x, hx, -⟩ := h.linked d c hc
    rw [hx]
    rfl
  names := h.names
  count := h.count
  parent o x d hx := by
    refine ⟨h.listed o x d hx, fun hme => ?_⟩
    obtain ⟨y, hy, hp, -⟩ := h.linked d o hme
    rw [hx] at hy
    cases hy
    exact hp
  references := h.references

/-! ## Changing one object -/

section

variable {ns : Namespace O} {o : O} {x : Object O}

section

variable (ns : Namespace O) (o : O) (y : Option (Object O))

theorem object_set (p : O) :
    (ns.set o y).object p = if p = o then y else ns.object p := update_apply ..

theorem directory_set (p : O) :
    (ns.set o y).directory p = if p = o then y.bind Object.directory else ns.directory p := by
  unfold Namespace.directory
  rw [object_set]
  split <;> rfl

theorem children_set (p : O) :
    (ns.set o y).children p
      = if p = o then ((y.bind Object.directory).map Prod.fst).getD [] else ns.children p := by
  unfold Namespace.children
  rw [directory_set]
  split <;> rfl

theorem objectName_set (p : O) :
    (ns.set o y).objectName p = if p = o then y.bind Object.objectName else ns.objectName p := by
  unfold Namespace.objectName
  rw [object_set]
  split <;> rfl

end

variable {y : Object O}

section

variable (hx : ns.object o = some x)
include hx

/-- A change that leaves the body alone leaves every directory alone. -/
theorem directory_set_of_body (hy : y.body = x.body)
    (p : O) : (ns.set o (some y)).directory p = ns.directory p := by
  rw [directory_set]
  split
  · next h =>
      subst h
      unfold Namespace.directory
      rw [hx]
      simp only [bind_some, Object.directory, hy]
  · rfl

theorem children_set_of_body (hy : y.body = x.body)
    (p : O) : (ns.set o (some y)).children p = ns.children p := by
  unfold Namespace.children
  rw [directory_set_of_body hx hy]

theorem objectName_set_of_name (hy : y.objectName = x.objectName) (p : O) :
    (ns.set o (some y)).objectName p = ns.objectName p := by
  rw [objectName_set]
  split
  · next h =>
      subst h
      unfold Namespace.objectName
      rw [hx]
      exact hy
  · rfl

theorem modify_present (f : Object O → Object O) :
    ns.modify o f = ns.set o (some (f x)) := by
  unfold Namespace.modify
  rw [hx]
  rfl

end

end

section

variable {s : ObSystem O} {o : O} {x : Object O}

omit [DecidableEq O] in
theorem Inv.not_mem_children (h : s.Inv) (hx : s.ns.object o = some x)
    (hp : x.parentDirectory = none) (d : O) : o ∉ s.ns.children d := by
  intro hme
  obtain ⟨y, hy, hsm, -⟩ := h.linked d o hme
  rw [hx] at hy
  cases hy
  rw [hp] at hsm
  cases hsm

/-- A change to one object that leaves its body and its parent alone, and its name too if it is
linked. -/
theorem Inv.change (h : s.Inv) (hx : s.ns.object o = some x) {y : Object O} {m : Nat}
    (hbd : y.body = x.body) (hpr : y.parentDirectory = x.parentDirectory)
    (hpn : y.permanent = x.permanent)
    (hnm : y.objectName = x.objectName ∨ x.parentDirectory = none)
    (hcount : y.pointerCount = m + (s.ns.children o).length)
    (hrp : o ∈ s.ns.reaperList → y.pointerCount = 0) :
    Inv ⟨s.ns.set o (some y), update s.held o m⟩ := by
  have hdr := directory_set_of_body hx hbd
  have hh := children_set_of_body hx hbd
  constructor
  · intro d c hc
    rw [hh] at hc
    obtain ⟨z, hz, hln, hnd⟩ := h.linked d c hc
    rw [object_set]
    split
    · next heq =>
        subst heq
        rw [hx] at hz
        cases hz
        refine ⟨y, rfl, hpr.trans hln, ?_⟩
        obtain hsm | hnn := hnm
        · rw [hsm]
          exact hnd
        · exact absurd (hnn.symm.trans hln) nofun
    · exact ⟨z, hz, hln, hnd⟩
  · intro c z d hz hln
    rw [hh]
    rw [object_set] at hz
    split at hz
    · next heq =>
        subst heq
        cases hz
        exact h.listed c x d hx (hpr.symm.trans hln)
    · exact h.listed c z d hz hln
  · intro d
    rw [hh]
    refine Pairwise.imp_of_mem ?_ (h.names d)
    intro a b ha hb hab
    obtain hsm | hnn := hnm
    · rwa [objectName_set_of_name hx hsm, objectName_set_of_name hx hsm]
    · -- An object without a parent is on no list.
      have hne : ∀ c ∈ s.ns.children d, c ≠ o := by
        rintro c hc rfl
        exact h.not_mem_children hx hnn d hc
      rwa [objectName_set, if_neg (hne a ha), objectName_set, if_neg (hne b hb)]
  · intro d cs count hd
    rw [hdr] at hd
    exact h.count d cs count hd
  · intro p z hz
    rw [hh]
    rw [object_set] at hz
    dsimp only
    rw [update_apply]
    split at hz
    · next heq =>
        subst heq
        cases hz
        rw [if_pos rfl]
        exact hcount
    · next heq =>
        rw [if_neg heq]
        exact h.references p z hz
  · intro p hp
    rw [object_set] at hp
    split at hp
    · cases hp
    · next heq =>
        dsimp only
        rw [update_of_ne heq]
        exact h.freed p hp
  · intro p hp
    obtain ⟨z, hz, hzr, hpm, hnn⟩ := h.reaped p hp
    rw [object_set]
    split
    · next heq =>
        subst heq
        rw [hx] at hz
        cases hz
        exact ⟨y, rfl, hrp hp, hpn.trans hpm, hpr.trans hnn⟩
    · exact ⟨z, hz, hzr, hpm, hnn⟩
  · exact h.reapedOnce

omit [DecidableEq O] in
theorem Inv.not_mem_reaperList (h : s.Inv) (hx : s.ns.object o = some x)
    (hpos : 0 < x.pointerCount ∨ x.permanent = true) : o ∉ s.ns.reaperList := by
  intro hme
  obtain ⟨y, hy, hz, hp, -⟩ := h.reaped o hme
  rw [hx] at hy
  cases hy
  obtain hpos | hpos := hpos
  · omega
  · rw [hp] at hpos
    cases hpos

theorem Inv.take (h : s.Inv) (hx : s.ns.object o = some x) (hp : o ∉ s.ns.reaperList) :
    (s.take o (s.ns.obReferenceObjectByPointer o)).Inv := by
  unfold ObSystem.take Namespace.obReferenceObjectByPointer
  rw [modify_present hx]
  refine h.change hx rfl rfl rfl (.inl rfl) ?_ fun hme => (hp hme).elim
  have := h.references o x hx
  dsimp only
  omega

theorem Inv.free (h : s.Inv) (hx : s.ns.object o = some x) (hpr : x.parentDirectory = none)
    (hh : s.ns.children o = []) (reaperList : List O)
    (hrp : ∀ p ∈ reaperList, p ∈ s.ns.reaperList ∧ p ≠ o) (hon : reaperList.Nodup) :
    Inv ⟨{ s.ns.set o none with reaperList }, update s.held o 0⟩ := by
  have hrs : ∀ d, Namespace.children { s.ns.set o none with reaperList } d = s.ns.children d := by
    intro d
    refine (children_set ..).trans ?_
    split
    · next heq =>
        rw [heq, hh]
        rfl
    · rfl
  have hob : ∀ p, Namespace.object { s.ns.set o none with reaperList } p
      = if p = o then none else s.ns.object p := object_set s.ns o none
  constructor
  · intro d c hc
    rw [hrs] at hc
    obtain ⟨z, hz, hln⟩ := h.linked d c hc
    refine ⟨z, ?_, hln⟩
    rw [hob, if_neg, hz]
    rintro rfl
    exact h.not_mem_children hx hpr d hc
  · intro c z d hz hln
    rw [hrs]
    rw [hob] at hz
    split at hz
    · cases hz
    · exact h.listed c z d hz hln
  · intro d
    rw [hrs]
    refine Pairwise.imp_of_mem ?_ (h.names d)
    intro a b ha hb hab
    have hne : ∀ c ∈ s.ns.children d, c ≠ o := by
      rintro c hc rfl
      exact h.not_mem_children hx hpr d hc
    have hnm : ∀ c ∈ s.ns.children d,
        Namespace.objectName { s.ns.set o none with reaperList } c = s.ns.objectName c := by
      intro c hc
      exact (objectName_set ..).trans (if_neg (hne c hc))
    rwa [hnm a ha, hnm b hb]
  · intro d children count hd
    have hst := (directory_set s.ns o none d).symm.trans hd
    split at hst
    · cases hst
    · exact h.count d children count hst
  · intro p z hz
    rw [hrs]
    rw [hob] at hz
    split at hz
    · cases hz
    · next heq =>
        dsimp only
        rw [update_of_ne heq]
        exact h.references p z hz
  · intro p hp
    dsimp only
    rw [update_apply]
    split
    · rfl
    · next heq =>
        rw [hob, if_neg heq] at hp
        exact h.freed p hp
  · intro p hp
    obtain ⟨hme, hne⟩ := hrp p hp
    obtain ⟨z, hz, hzr⟩ := h.reaped p hme
    exact ⟨z, by rw [hob, if_neg hne, hz], hzr⟩
  · exact hon

theorem Inv.alloc (h : s.Inv) (hfr : s.ns.object o = none) (type : ObjectType) (per : Bool) :
    Inv ⟨s.ns.set o (some ⟨per, none, none, 1, Namespace.newBody type⟩), update s.held o 1⟩ := by
  have hold : s.ns.children o = [] := by
    unfold Namespace.children Namespace.directory
    rw [hfr]
    rfl
  have hh : ∀ d, (s.ns.set o (some ⟨per, none, none, 1, Namespace.newBody type⟩)
      ).children d = s.ns.children d := by
    intro d
    rw [children_set]
    split
    · next heq =>
        rw [heq, hold]
        cases type <;> rfl
    · rfl
  have hne : ∀ d, ∀ c ∈ s.ns.children d, c ≠ o := by
    rintro d c hc rfl
    obtain ⟨z, hz, -⟩ := h.linked d c hc
    rw [hfr] at hz
    cases hz
  constructor
  · intro d c hc
    rw [hh] at hc
    obtain ⟨z, hz, hln⟩ := h.linked d c hc
    exact ⟨z, by rw [object_set, if_neg (hne d c hc), hz], hln⟩
  · intro c z d hz hln
    rw [hh]
    rw [object_set] at hz
    split at hz
    · cases hz
      cases hln
    · exact h.listed c z d hz hln
  · intro d
    rw [hh]
    refine Pairwise.imp_of_mem ?_ (h.names d)
    intro a b ha hb hab
    rwa [objectName_set, if_neg (hne d a ha), objectName_set, if_neg (hne d b hb)]
  · intro d cs count hd
    rw [directory_set] at hd
    split at hd
    · cases type with
      | directory =>
        cases hd
        rfl
      | symbolicLink => cases hd
      | file => cases hd
      | other type => cases hd
    · exact h.count d cs count hd
  · intro p z hz
    rw [hh]
    rw [object_set] at hz
    dsimp only
    rw [update_apply]
    split at hz
    · next heq =>
        subst heq
        cases hz
        rw [if_pos rfl, hold]
        rfl
    · next heq =>
        rw [if_neg heq]
        exact h.references p z hz
  · intro p hp
    rw [object_set] at hp
    split at hp
    · cases hp
    · next heq =>
        dsimp only
        rw [update_of_ne heq]
        exact h.freed p hp
  · intro p hp
    obtain ⟨z, hz, hzr⟩ := h.reaped p hp
    have : p ≠ o := by
      rintro rfl
      rw [hfr] at hz
      cases hz
    exact ⟨z, by rw [object_set, if_neg this, hz], hzr⟩
  · exact h.reapedOnce

/-- What `insertChild` leaves of an object. -/
def inserted (dir o : O) (children : List O) (count : Int) (p : O) (y : Object O) : Object O :=
  { y with
    body := if p = dir then .directory (children ++ [o]) (count + 1) else y.body
    pointerCount := if p = dir then y.pointerCount + 1 else y.pointerCount
    parentDirectory := if p = o then some dir else y.parentDirectory }

theorem object_insertChild (ns : Namespace O) (dir o : O) (cs : List O) (count : Int) (p : O) :
    (ns.insertChild dir o cs count).object p = (ns.object p).map (inserted dir o cs count p) := by
  unfold Namespace.insertChild Namespace.obReferenceObjectByPointer Namespace.modify
  simp only [object_set]
  unfold inserted
  by_cases hdr : p = dir <;> by_cases ho : p = o
  · subst hdr ho
    cases ns.object p <;> simp
  · subst hdr
    rw [if_neg ho]
    cases ns.object p <;> simp [ho]
  · subst ho
    rw [if_pos rfl]
    cases ns.object p <;> simp [hdr]
  · rw [if_neg ho, if_neg hdr, if_neg hdr]
    cases ns.object p <;> simp [hdr, ho]

theorem Inv.insertChild (h : s.Inv) {dir : O} {children : List O} {count : Int}
    (hdr : s.ns.directory dir = some (children, count)) (hx : s.ns.object o = some x)
    (hpr : x.parentDirectory = none) (hnd : x.objectName.isSome = true)
    (hrp : dir ∉ s.ns.reaperList) (hrp' : o ∉ s.ns.reaperList)
    (hnm : ∀ c ∈ children, s.ns.objectName c ≠ x.objectName) :
    Inv ⟨s.ns.insertChild dir o children count, s.held⟩ := by
  have hold : s.ns.children dir = children := by
    unfold Namespace.children
    rw [hdr]
    rfl
  have hob := object_insertChild s.ns dir o children count
  have hdc : ∀ d, (s.ns.insertChild dir o children count).directory d
      = if d = dir then some (children ++ [o], count + 1) else s.ns.directory d := by
    intro d
    unfold Namespace.directory at hdr ⊢
    rw [hob]
    split
    · next heq =>
        subst heq
        obtain ⟨y, hy, -⟩ := bind_eq_some_iff.1 hdr
        rw [hy]
        simp [inserted, Object.directory]
    · next heq =>
        cases s.ns.object d with
        | none => rfl
        | some y => simp [inserted, Object.directory, heq]
  have hh : ∀ d, (s.ns.insertChild dir o children count).children d
      = if d = dir then children ++ [o] else s.ns.children d := by
    intro d
    unfold Namespace.children
    rw [hdc]
    split <;> rfl
  have hns : ∀ p, (s.ns.insertChild dir o children count).objectName p = s.ns.objectName p := by
    intro p
    unfold Namespace.objectName
    rw [hob]
    cases s.ns.object p <;> rfl
  constructor
  · intro d c hc
    dsimp only at hc ⊢
    rw [hh] at hc
    have hcs : c ∈ s.ns.children d ∨ d = dir ∧ c = o := by
      split at hc
      · next heq =>
          subst heq
          obtain hc | hc := mem_append.1 hc
          · exact .inl (by rwa [hold])
          · exact .inr ⟨rfl, mem_singleton.1 hc⟩
      · exact .inl hc
    clear hc
    obtain hc | ⟨rfl, rfl⟩ := hcs
    · obtain ⟨z, hz, hln, hsm⟩ := h.linked d c hc
      have hne : c ≠ o := by
        rintro rfl
        exact h.not_mem_children hx hpr d hc
      refine ⟨inserted dir o children count c z, by rw [hob, hz]; rfl, ?_, hsm⟩
      simpa only [inserted, if_neg hne] using hln
    · refine ⟨inserted d c children count c x, by rw [hob, hx]; rfl, ?_, hnd⟩
      simp only [inserted, if_true]
  · intro c z d hz hln
    dsimp only at hz ⊢
    rw [hob] at hz
    obtain ⟨y, hy, rfl⟩ := map_eq_some_iff.1 hz
    rw [hh]
    simp only [inserted] at hln
    split at hln
    · next heq =>
        subst heq
        cases hln
        rw [if_pos rfl]
        exact mem_append_right _ (mem_singleton_self _)
    · have hme := h.listed c y d hy hln
      split
      · next heq =>
          subst heq
          rw [hold] at hme
          exact mem_append_left _ hme
      · exact hme
  · intro d
    rw [hh]
    simp only [hns]
    split
    · refine pairwise_append.2 ⟨?_, pairwise_singleton .., ?_⟩
      · have := h.names dir
        rwa [hold] at this
      · intro a ha b hb
        rw [mem_singleton.1 hb]
        have : s.ns.objectName o = x.objectName := by
          unfold Namespace.objectName
          rw [hx]
          rfl
        rw [this]
        exact hnm a ha
    · exact h.names d
  · intro d children' count' hd
    rw [hdc] at hd
    split at hd
    · cases hd
      rw [h.count dir children count hdr, length_append]
      rfl
    · exact h.count d children' count' hd
  · intro p z hz
    dsimp only at hz ⊢
    rw [hob] at hz
    obtain ⟨y, hy, rfl⟩ := map_eq_some_iff.1 hz
    rw [hh]
    have hrf := h.references p y hy
    simp only [inserted]
    split
    · next heq =>
        subst heq
        rw [hold] at hrf
        rw [length_append, length_singleton]
        omega
    · exact hrf
  · intro p hp
    dsimp only at hp ⊢
    rw [hob] at hp
    exact h.freed p (map_eq_none_iff.1 hp)
  · intro p hp
    have hne : p ≠ dir ∧ p ≠ o := ⟨by rintro rfl; exact hrp hp, by rintro rfl; exact hrp' hp⟩
    obtain ⟨z, hz, hzr, hpm, hnn⟩ := h.reaped p hp
    refine ⟨inserted dir o children count p z, by rw [hob, hz]; rfl, ?_, hpm, ?_⟩
    · simpa only [inserted, if_neg hne.1] using hzr
    · simpa only [inserted, if_neg hne.2] using hnn
  · exact h.reapedOnce

/-! ## The steps of a run -/

omit [DecidableEq O] in
/-- What a caller may use is not about to be reaped. -/
theorem Inv.not_reaped (h : s.Inv) (ho : s.Usable o) : o ∉ s.ns.reaperList := by
  obtain ⟨y, hy, hu⟩ := ho
  refine h.not_mem_reaperList hy (hu.imp_left fun hh => ?_)
  have := h.references o y hy
  omega

omit [DecidableEq O] in
/-- A name for the link changes the name only, and is there on success. -/
theorem nameForLink_spec (x : Object O) (name : Option Name) (room : Bool) :
    (Namespace.nameForLink x name room).2
        = { x with objectName := (Namespace.nameForLink x name room).2.objectName } ∧
      ((Namespace.nameForLink x name room).1 = .success →
        (Namespace.nameForLink x name room).2.objectName.isSome = true) := by
  unfold Namespace.nameForLink Namespace.obpAssignName
  cases hnm : x.objectName with
  | some old =>
    refine ⟨rfl, fun _ => ?_⟩
    rw [hnm]
    rfl
  | none =>
    cases name with
    | none => exact ⟨rfl, nofun⟩
    | some name =>
      cases room with
      | true => exact ⟨rfl, fun _ => rfl⟩
      | false => exact ⟨rfl, nofun⟩

theorem Inv.link (h : s.Inv) {dir : O} (hdr : dir ∉ s.ns.reaperList)
    (ho : o ∉ s.ns.reaperList) {name : Option Name} {room : Bool} {st : ObStatus}
    {ns : Namespace O} (hst : s.ns.obLinkObject dir o name room = some (st, ns)) :
    Inv ⟨ns, s.held⟩ ∧ (ns.object o).isSome = true := by
  obtain ⟨x, hx, hln⟩ := bind_eq_some_iff.1 hst
  split at hln
  · cases hln
    exact ⟨h, by rw [hx]; rfl⟩
  · next hp =>
      rw [Bool.not_eq_true, isSome_eq_false_iff, isNone_iff_eq_none] at hp
      obtain ⟨hh, hnd⟩ := nameForLink_spec x name room
      generalize hnm : Namespace.nameForLink x name room = r at hln hh hnd
      obtain ⟨st', y⟩ := r
      dsimp only at hln hh hnd
      have hw : Inv ⟨s.ns.set o (some y), s.held⟩ := by
        have := h.change (y := y) (m := s.held o) hx (by rw [hh]) (by rw [hh])
          (by rw [hh]) (.inr hp) (by rw [hh]; exact h.references o x hx)
          fun hme => (ho hme).elim
        rwa [update_eq_self] at this
      have hy : (s.ns.set o (some y)).object o = some y := by
        rw [object_set, if_pos rfl]
      split at hln
      · cases hln
        exact ⟨hw, by rw [hy]; rfl⟩
      · next hok =>
          obtain ⟨⟨cs, count⟩, hch, heq⟩ := map_eq_some_iff.1 hln
          split at heq
          · cases heq
            exact ⟨hw, by rw [hy]; rfl⟩
          · next hfr =>
              cases heq
              refine ⟨hw.insertChild hch hy (by rw [hh]; exact hp)
                (hnd (not_not.1 hok)) hdr ho fun c hc hsm => ?_, ?_⟩
              · refine hfr (List.any_eq_true.2 ⟨c, hc, ?_⟩)
                exact decide_eq_true hsm
              · rw [object_insertChild, hy]
                rfl

theorem Inv.dereference (h : s.Inv) {highIpl : Bool} (hh : 0 < s.held o)
    (hcl : s.Calm (.dereference o highIpl)) {ns : Namespace O}
    (hsp : s.ns.obDereferenceObject o highIpl = some ns) :
    Inv ⟨ns, update s.held o (s.held o - 1)⟩ := by
  obtain ⟨x, hx, hdrop⟩ := bind_eq_some_iff.1 hsp
  have hrf := h.references o x hx
  have hrp : o ∉ s.ns.reaperList := h.not_mem_reaperList hx (.inl (by omega))
  have hls : Inv ⟨s.ns.modify o fun h => { h with pointerCount := h.pointerCount - 1 },
      update s.held o (s.held o - 1)⟩ := by
    rw [modify_present hx]
    refine h.change hx rfl rfl rfl (.inl rfl) ?_ fun hme => (hrp hme).elim
    dsimp only
    omega
  split at hdrop
  · cases hdrop
  · dsimp only at hdrop
    split at hdrop
    · cases hdrop
      exact hls
    · next hlst =>
        obtain ⟨hon, hpr⟩ := not_or.1 hlst
        replace hon := not_not.1 hon
        replace hpr : x.permanent = false := by simpa using hpr
        have hpa := hcl x hx hon hpr
        have hc : s.ns.children o = [] := eq_nil_of_length_eq_zero (by omega)
        have hz : s.held o - 1 = 0 := by omega
        rw [modify_present hx] at hdrop hls
        split at hdrop
        · -- At high IPL the object goes on the reaper's list.
          unfold Namespace.obpReapObject at hdrop
          split at hdrop
          · cases hdrop
          · cases hdrop
            refine ⟨hls.linked, hls.listed, hls.names, hls.count, hls.references,
              hls.freed, fun p hp => ?_, ?_⟩
            · obtain hp | hp := mem_append.1 hp
              · exact hls.reaped p hp
              · rw [mem_singleton.1 hp]
                refine ⟨{ x with pointerCount := x.pointerCount - 1 }, ?_, ?_, hpr, hpa⟩
                · dsimp only
                  rw [object_set, if_pos rfl]
                · dsimp only
                  omega
            · refine nodup_append.2 ⟨h.reapedOnce, pairwise_singleton .., ?_⟩
              rintro a ha b hb rfl
              rw [mem_singleton.1 hb] at ha
              exact hrp ha
        · cases hdrop
          have hgn := h.free hx hpa hc s.ns.reaperList
            (fun p hp => ⟨hp, by rintro rfl; exact hrp hp⟩) h.reapedOnce
          rw [hz]
          unfold Namespace.obpDeleteObject
          rw [object_set, if_pos rfl, any_some, if_neg (by simp [hpr])]
          have hst : (s.ns.set o (some { x with pointerCount := x.pointerCount - 1 })).set o none
              = s.ns.set o none := by
            unfold Namespace.set
            simp only [update_idem]
          rw [hst]
          exact hgn

theorem Inv.reaperTurn (h : s.Inv) {ns : Namespace O} (hst : s.ns.obpReaperTurn = some ns) :
    Inv ⟨ns, s.held⟩ := by
  unfold Namespace.obpReaperTurn at hst
  split at hst
  · cases hst
  · next o rest hls =>
      cases hst
      obtain ⟨x, hx, hz, hpm, hpr⟩ := h.reaped o (by rw [hls]; simp)
      have hrf := h.references o x hx
      have hc : s.ns.children o = [] := eq_nil_of_length_eq_zero (by omega)
      have hon := h.reapedOnce
      rw [hls, nodup_cons] at hon
      have hgn := h.free hx hpr hc rest (fun p hp => ⟨by rw [hls]; exact mem_cons_of_mem _ hp,
          by rintro rfl; exact hon.1 hp⟩) hon.2
      have hh : update s.held o 0 = s.held := by
        rw [update_eq_self_iff]
        omega
      rw [hh] at hgn
      unfold Namespace.obpDeleteObject
      rw [hx, any_some, if_neg (by simp [hpm])]
      exact hgn

theorem Inv.step (h : s.Inv) {a : ObAction O} {s' : ObSystem O} (hp : s.Promised a)
    (hcl : s.Calm a) (hst : s.step a = some s') : s'.Inv := by
  cases a with
  | create o type per mem cal tgt room =>
    obtain ⟨hfr, htr⟩ := hp
    have hw := h.alloc hfr type per
    have htk : ∀ ns, s.take o ns = ⟨ns, update s.held o 1⟩ := by
      intro ns
      unfold ObSystem.take
      rw [h.freed o hfr]
    obtain ⟨⟨st, ns⟩, hc, rfl⟩ := map_eq_some_iff.1 hst
    unfold Namespace.createObject at hc
    dsimp only at hc ⊢
    split at hc
    · cases hc
      rw [hfr, if_neg (by simp)]
      exact h
    · split at hc
      · cases hc
        rw [object_set, if_pos rfl, if_neg (by simp)]
        have hse : (s.ns.set o (some ⟨per, none, none, 1, Namespace.newBody type⟩)).set o none
            = s.ns := by
          unfold Namespace.set
          simp only [update_idem]
          rw [← hfr, update_eq_self]
        rw [hse]
        exact h
      · split at hc
        · cases hc
          rw [object_set, if_pos rfl, isSome_some, if_pos rfl, htk]
          exact hw
        · next dir name =>
            have hdr := h.not_reaped (htr dir name rfl).1
            have ho : o ∉ s.ns.reaperList := by
              intro hme
              obtain ⟨y, hy, -⟩ := h.reaped o hme
              rw [hfr] at hy
              cases hy
            obtain ⟨hin, hsm⟩ := hw.link hdr ho hc
            rw [if_pos hsm, htk]
            exact hin
  | link dir o name room =>
    obtain ⟨⟨st, ns⟩, hln, rfl⟩ := map_eq_some_iff.1 hst
    exact (h.link (h.not_reaped hp.1.1) (h.not_reaped hp.2) hln).1
  | unlink o =>
    obtain ⟨⟨st, ns⟩, hu, rfl⟩ := map_eq_some_iff.1 hst
    obtain ⟨x, hx, hrs⟩ := bind_eq_some_iff.1 hu
    rw [hcl x hx] at hrs
    cases hrs
    exact h
  | lookUp dir path =>
    obtain ⟨⟨cs, count⟩, hdr, rfl⟩ := map_eq_some_iff.1 hst
    unfold Namespace.obpLookUpDirectoryEntry
    dsimp only
    cases hfn : cs.find? fun c =>
      ((s.ns.objectName c).any fun name => Namespace.obMatchPathName name path ≠ 0) with
    | none => exact h
    | some c =>
      have hme : c ∈ s.ns.children dir := by
        unfold Namespace.children
        rw [hdr]
        exact mem_of_find?_eq_some hfn
      obtain ⟨y, hy, hpr, -⟩ := h.linked dir c hme
      refine h.take hy fun hrp => ?_
      obtain ⟨z, hz, -, -, hnn⟩ := h.reaped c hrp
      rw [hy] at hz
      cases hz
      rw [hpr] at hnn
      cases hnn
  | reference o =>
    cases hst
    obtain ⟨x, hx, hus⟩ := hp
    exact h.take hx (h.not_reaped ⟨x, hx, hus⟩)
  | dereference o highIpl =>
    obtain ⟨ns, hdrop, rfl⟩ := map_eq_some_iff.1 hst
    exact h.dereference hp hcl hdrop
  | reap =>
    obtain ⟨ns, htn, rfl⟩ := map_eq_some_iff.1 hst
    exact h.reaperTurn htn

end

/-! ## Every run -/

/-- `ObpInitializeRootDirectory`: the root directory, which is permanent. -/
def initial (root : O) : ObSystem O where
  ns := ⟨update (fun _ => none) root (some ⟨true, none, none, 1, .directory [] 0⟩), []⟩
  held := update (fun _ => 0) root 1

theorem inv_initial (root : O) : (initial root).Inv := by
  have hob : ∀ o x, (initial root).ns.object o = some x →
      o = root ∧ x = ⟨true, none, none, 1, .directory [] 0⟩ := by
    intro o x hx
    unfold initial at hx
    dsimp only at hx
    rw [update_apply] at hx
    split at hx
    · next heq => exact ⟨heq, (some.inj hx).symm⟩
    · cases hx
  have hdr : ∀ d cs count, (initial root).ns.directory d = some (cs, count) → cs = [] ∧ count = 0 := by
    intro d cs count hd
    obtain ⟨x, hx, hb⟩ := bind_eq_some_iff.1 hd
    obtain ⟨-, rfl⟩ := hob d x hx
    cases hb
    exact ⟨rfl, rfl⟩
  have hh : ∀ d, (initial root).ns.children d = [] := by
    intro d
    unfold Namespace.children
    cases hd : (initial root).ns.directory d with
    | none => rfl
    | some r => exact (hdr d r.1 r.2 hd).1
  constructor
  · intro d c hc
    rw [hh] at hc
    cases hc
  · intro c x d hx hp
    obtain ⟨-, rfl⟩ := hob c x hx
    cases hp
  · intro d
    rw [hh]
    exact .nil
  · intro d cs count hd
    obtain ⟨rfl, rfl⟩ := hdr d cs count hd
    rfl
  · intro o x hx
    obtain ⟨rfl, rfl⟩ := hob o x hx
    rw [hh]
    unfold initial
    dsimp only
    rw [update_self]
    rfl
  · intro o ho
    unfold initial at ho ⊢
    dsimp only at ho ⊢
    rw [update_apply] at ho ⊢
    split at ho
    · cases ho
    · next hne => rw [if_neg hne]
  · intro o ho
    cases ho
  · exact .nil

/-- In every run of callers that keep their promises, in which no linked object is unlinked or loses
its last reference, every state has its directories intact. -/
theorem directories_intact {root : O} {s : ObSystem O}
    (h : Reaches step (fun s a => s.Promised a ∧ s.Calm a) (initial root) s) : s.Intact := by
  refine Inv.intact (h.invariant (I := Inv) (inv_initial root) ?_)
  intro t a u ht hc hst
  exact ht.step hc.1 hc.2 hst

/-- Create an object with the number one and the name `a` in the root directory. -/
def createA : ObAction Nat := .create 1 (.other 0) false true .success (some (0, ['a'])) true

theorem promised_createA : (initial 0).Promised createA := by
  refine ⟨rfl, fun dir name heq => ?_⟩
  cases heq
  exact ⟨⟨_, rfl, .inl Nat.zero_lt_one⟩, rfl⟩

/-- An object is created and looked up. -/
theorem directories_intact_sample :
    ∃ s : ObSystem Nat, Reaches step (fun s a => s.Promised a ∧ s.Calm a) (initial 0) s ∧
      s.ns.children 0 = [1] ∧ s.held 1 = 2 ∧ s.Intact := by
  have hrn : ∃ s : ObSystem Nat, Reaches step (fun s a => s.Promised a ∧ s.Calm a) (initial 0) s ∧
        s.ns.children 0 = [1] ∧ s.held 1 = 2 := by
    refine ⟨_, .tail (.tail .refl ⟨promised_createA, trivial⟩ rfl) ⟨?_, trivial⟩
      (a := .lookUp 0 ['a', '/', 'b']) rfl, rfl, rfl⟩
    exact ⟨⟨_, rfl, .inl Nat.zero_lt_one⟩, rfl⟩
  obtain ⟨s, hs, hc, hh⟩ := hrn
  exact ⟨s, hs, hc, hh, directories_intact hs⟩

/-- An object that is unlinked keeps its parent, and one that is deleted stays on the list. -/
theorem directory_not_intact :
    (∃ s : ObSystem Nat, Reaches step Promised (initial 0) s ∧ s.ns.children 0 = [] ∧
      (s.ns.object 1).bind Object.parentDirectory = some 0 ∧ ¬ s.Intact) ∧
    (∃ s : ObSystem Nat, Reaches step Promised (initial 0) s ∧ s.ns.children 0 = [1] ∧
      s.ns.object 1 = none ∧ ¬ s.Intact) := by
  constructor
  · have hrn : ∃ s : ObSystem Nat, Reaches step Promised (initial 0) s ∧ s.ns.children 0 = [] ∧
        (s.ns.object 1).bind Object.parentDirectory = some 0 := by
      refine ⟨_, .tail (.tail .refl promised_createA rfl) (a := .unlink 1) ?_ rfl, rfl, rfl⟩
      exact ⟨_, rfl, .inl Nat.zero_lt_one⟩
    obtain ⟨s, hs, hc, hp⟩ := hrn
    refine ⟨s, hs, hc, hp, fun h => ?_⟩
    obtain ⟨x, hx, hsm⟩ := bind_eq_some_iff.1 hp
    have := (h.parent 1 x 0 hx).1 hsm
    rw [hc] at this
    cases this
  · have hrn : ∃ s : ObSystem Nat, Reaches step Promised (initial 0) s ∧ s.ns.children 0 = [1] ∧
        s.ns.object 1 = none := by
      refine ⟨_, .tail (.tail .refl promised_createA rfl) (a := .dereference 1 false) ?_ rfl, rfl,
        rfl⟩
      exact Nat.zero_lt_one
    obtain ⟨s, hs, hc, hnn⟩ := hrn
    refine ⟨s, hs, hc, hnn, fun h => ?_⟩
    have := h.alive 0 1 (by rw [hc]; exact mem_singleton_self 1)
    rw [hnn] at this
    cases this

end ObSystem

end Boron.Ob
