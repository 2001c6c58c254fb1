import Boron.Lib.Counted
import Boron.Tmpfs.Tree
import Mathlib.Algebra.Order.Group.Multiset
import Mathlib.Tactic.Abel

/-! # Runs of the directory tree

The reference counts are right but for one reference too many on each FCB, the first one, which
`TmpCreateFile` does not give back (`Books`). So no FCB whose creation has succeeded is ever freed, and
a root directory stays. Its entry `.` is not on its list and no other entry names it (`Rooted`):
`tree_never_safe`. -/

namespace Boron.Tmpfs

open Function List Option

namespace Tree

variable {F : Type} [DecidableEq F] {s s' : Tree F} {f p root : F} {e : Nat} {d : DirEntry F}

/-! ## What does not change with a reference -/

/-- All of an FCB but its reference count. -/
def shape (x : Fcb) : FileType × Option Nat × List Nat := (x.fileType, x.parentEntry, x.children)

/-- The trees differ in reference counts and mutexes only. -/
structure Alike (s s' : Tree F) : Prop where
  fcb : ∀ g, (s'.fcb g).map shape = (s.fcb g).map shape
  fcbs : s'.fcbs = s.fcbs
  entries : s'.entries = s.entries
  nextEntry : s'.nextEntry = s.nextEntry
  fileObjects : s'.fileObjects = s.fileObjects

omit [DecidableEq F] in
theorem Alike.trans {s'' : Tree F} (h : s.Alike s') (h' : s'.Alike s'') : s.Alike s'' where
  fcb g := (h'.fcb g).trans (h.fcb g)
  fcbs := h'.fcbs.trans h.fcbs
  entries := h'.entries.trans h.entries
  nextEntry := h'.nextEntry.trans h.nextEntry
  fileObjects := h'.fileObjects.trans h.fileObjects

theorem alike_set {x y : Fcb} (hx : s.fcb f = some x) (hh : shape y = shape x) :
    s.Alike (s.set f (some y)) := by
  refine ⟨fun g => ?_, rfl, rfl, rfl, rfl⟩
  by_cases hg : g = f
  · subst hg
    simp only [set, update_self, hx, map_some, hh]
  · simp only [set, update_of_ne hg]

/-! ## Reference counts -/

/-- The references of the entries in memory. -/
def refsOf (entries : List (Nat × DirEntry F)) : Multiset F :=
  (entries.map fun x => ({x.2.parentFcb} + {x.2.fcb} : Multiset F)).sum

omit [DecidableEq F] in
theorem refsOf_cons (x : Nat × DirEntry F) (l : List (Nat × DirEntry F)) :
    refsOf (x :: l) = {x.2.parentFcb} + {x.2.fcb} + refsOf l := by
  rw [refsOf, map_cons, sum_cons]
  rfl

omit [DecidableEq F] in
/-- An entry that is there holds its two references. -/
theorem refsOf_entry {l : List (Nat × DirEntry F)}
    (h : (l.find? fun x => x.1 = e).map Prod.snd = some d) :
    refsOf l = {d.parentFcb} + {d.fcb} + refsOf (l.eraseP fun x => x.1 = e) := by
  obtain ⟨x, hx, rfl⟩ := map_eq_some_iff.1 h
  clear h
  induction l with
  | nil => cases hx
  | cons y l ih =>
    by_cases hy : y.1 = e
    · rw [List.find?_cons_of_pos (by simpa using hy)] at hx
      cases hx
      rw [eraseP_cons_of_pos (by simpa using hy), refsOf_cons]
    · rw [List.find?_cons_of_neg (by simpa using hy)] at hx
      rw [eraseP_cons_of_neg (by simpa using hy), refsOf_cons, refsOf_cons, ih hx]
      abel

omit [DecidableEq F] in
/-- The other entries are there when an entry is not. -/
theorem find?_eraseP {l : List (Nat × DirEntry F)} {e' : Nat} (hne : e ≠ e') :
    ((l.eraseP fun x => x.1 = e).find? fun x => x.1 = e') = l.find? fun x => x.1 = e' := by
  induction l with
  | nil => rfl
  | cons y l ih =>
    by_cases hy : y.1 = e
    · rw [eraseP_cons_of_pos (by simpa using hy), List.find?_cons_of_neg (by simp [hy, hne])]
    · rw [eraseP_cons_of_neg (by simpa using hy), List.find?_cons, List.find?_cons, ih]

/-- The counts are those of the references in `refs` and of one more for each FCB. -/
structure Books (s : Tree F) (made refs : Multiset F) : Prop where
  counts : Counts (fun g => (s.fcb g).map Fcb.referenceCount) (made + refs)
  live : ∀ g x, s.fcb g = some x → g ∈ made

namespace Books

variable {made refs refs' : Multiset F} {x y : Fcb}

section

variable (h : s.Books made refs)
include h

theorem congr (hrf : refs = refs') : s.Books made refs' := hrf ▸ h

theorem count_eq (hx : s.fcb f = some x) :
    x.referenceCount = made.count f + refs.count f := by
  have hcount := h.counts.count_eq (o := f) (n := x.referenceCount) (by simp only [hx, map_some])
  rw [← hcount, Multiset.count_add]

theorem set (hx : s.fcb f = some x)
    (hcount : y.referenceCount = made.count f + refs'.count f)
    (hother : ∀ g ≠ f, refs'.count g = refs.count g) : (s.set f (some y)).Books made refs' := by
  refine ⟨fun g => ?_, fun g z hz => ?_⟩
  · have hold := h.counts g
    by_cases hg : g = f
    · subst hg
      simp only [Tree.set, update_self, map_some, getD_some, hcount, Multiset.count_add]
    · simp only [Tree.set, update_of_ne hg]
      rw [Multiset.count_add] at hold ⊢
      rw [hother g hg, hold]
  · by_cases hg : g = f
    · exact hg ▸ h.live f x hx
    · simp only [Tree.set, update_of_ne hg] at hz
      exact h.live g z hz

theorem modify {cha : Fcb → Fcb}
    (hc : ∀ x, (cha x).referenceCount = x.referenceCount)
    (hs : s.modify f cha = some s') : s'.Books made refs := by
  obtain ⟨x, hx, rfl⟩ := map_eq_some_iff.1 hs
  refine h.set hx ?_ fun _ _ => rfl
  rw [hc, h.count_eq hx]

theorem reference (hs : s.tmpReferenceFcb f = some s') :
    s'.Books made ({f} + refs) ∧ s.Alike s' := by
  obtain ⟨x, hx, rfl⟩ := map_eq_some_iff.1 hs
  refine ⟨h.set hx ?_ fun g hg => ?_, alike_set hx rfl⟩
  · simp only [h.count_eq hx, Multiset.count_add, Multiset.count_singleton_self]
    omega
  · rw [Multiset.count_add, Multiset.count_singleton, if_neg hg, Nat.zero_add]

end

/-- A reference that is given back is not the last one. -/
theorem dereference (h : s.Books made ({f} + refs)) (hs : s.tmpDereferenceFcb f = some s') :
    s'.Books made refs ∧ s.Alike s' := by
  unfold tmpDereferenceFcb at hs
  split at hs
  · cases hs
  · next x hx =>
      have hcount := h.count_eq hx
      have hmd : 0 < made.count f := Multiset.count_pos.2 (h.live f x hx)
      rw [Multiset.count_add, Multiset.count_singleton_self] at hcount
      simp only at hs
      rw [if_neg (by omega)] at hs
      cases hs
      refine ⟨h.set hx ?_ fun g hg => ?_, alike_set hx rfl⟩
      · simp only
        omega
      · rw [Multiset.count_add, Multiset.count_singleton, if_neg hg, Nat.zero_add]

/-- What the counts say does not depend on the rest of the state. -/
theorem of_fcb (h : s.Books made refs) (hfcb : s'.fcb = s.fcb) : s'.Books made refs :=
  ⟨by rw [hfcb]; exact h.counts, by rw [hfcb]; exact h.live⟩

theorem notMem (h : s.Books made refs) (hf : s.fcb f = none) : f ∉ made ∧ f ∉ refs := by
  have hnt := h.counts.notMem (o := f) (by simp only [hf, map_none])
  rw [Multiset.mem_add] at hnt
  exact not_or.1 hnt

theorem allocate (h : s.Books made refs) (hf : s.fcb f = none) (ft : FileType) :
    (s.ioAllocateFcb f ft).Books (f ::ₘ made) refs := by
  obtain ⟨hmd, hrf⟩ := h.notMem hf
  refine ⟨fun g => ?_, fun g z hz => ?_⟩
  · have hold := h.counts g
    by_cases hg : g = f
    · subst hg
      simp only [ioAllocateFcb, Tree.set, update_self, map_some, getD_some,
        Multiset.count_add, Multiset.count_cons_self, Multiset.count_eq_zero.2 hmd,
        Multiset.count_eq_zero.2 hrf]
    · simp only [ioAllocateFcb, Tree.set, update_of_ne hg]
      rw [Multiset.count_add] at hold ⊢
      rw [Multiset.count_cons_of_ne hg, hold]
  · by_cases hg : g = f
    · exact hg ▸ Multiset.mem_cons_self g made
    · simp only [ioAllocateFcb, Tree.set, update_of_ne hg] at hz
      exact Multiset.mem_cons_of_mem (h.live g z hz)

/-- An FCB goes, with the references to it that are left. -/
theorem free {n : Nat} (h : s.Books (f ::ₘ made) (Multiset.replicate n f + refs)) (hmd : f ∉ made)
    (hrf : f ∉ refs) (hs : s.ioFreeFcb f = some s') : s'.Books made refs := by
  obtain ⟨x, -, rfl⟩ := map_eq_some_iff.1 hs
  refine ⟨fun g => ?_, fun g z hz => ?_⟩
  · have hold := h.counts g
    by_cases hg : g = f
    · subst hg
      simp only [Tree.set, update_self, map_none, getD_none,
        Multiset.count_add, Multiset.count_eq_zero.2 hmd, Multiset.count_eq_zero.2 hrf]
    · simp only [Tree.set, update_of_ne hg]
      rw [Multiset.count_add, Multiset.count_add, Multiset.count_cons_of_ne hg,
        Multiset.count_replicate, if_neg (Ne.symm hg), Nat.zero_add] at hold
      rw [Multiset.count_add, hold]
  · by_cases hg : g = f
    · subst hg
      simp only [Tree.set, update_self, reduceCtorEq] at hz
    · simp only [Tree.set, update_of_ne hg] at hz
      exact (Multiset.mem_cons.1 (h.live g z hz)).resolve_left hg

end Books

/-! ## The root directory -/

/-- The root directory is there, and no entry of it names it. -/
structure Rooted (s : Tree F) (root : F) : Prop where
  present : ∃ x, s.fcb root = some x ∧ x.fileType = .directory ∧ ∀ e ∈ x.children,
    e < s.nextEntry ∧ ∀ d, (e, d) ∈ s.entries → d.fcb ≠ root
  known : ∀ f, s.fcb f ≠ none → f ∈ s.fcbs
  numbered : ∀ x ∈ s.entries, x.1 < s.nextEntry

namespace Rooted

section

omit [DecidableEq F]

theorem alike (h : s.Rooted root) (ha : s.Alike s') : s'.Rooted root := by
  obtain ⟨x, hx, hdr, hc⟩ := h.present
  have hh := ha.fcb root
  rw [hx, map_some] at hh
  obtain ⟨y, hy, hxy⟩ := map_eq_some_iff.1 hh
  simp only [shape, Prod.mk.injEq] at hxy
  obtain ⟨hty, -, hls⟩ := hxy
  refine ⟨⟨y, hy, hty.trans hdr, ?_⟩, fun f hf => ?_, ?_⟩
  · rw [hls, ha.entries, ha.nextEntry]
    exact hc
  · rw [ha.fcbs]
    refine h.known f fun hnn => hf ?_
    have hh := ha.fcb f
    rw [hnn, map_none] at hh
    exact map_eq_none_iff.1 hh
  · rw [ha.entries, ha.nextEntry]
    exact h.numbered

theorem of_fcb (h : s.Rooted root) (hfcb : s'.fcb = s.fcb) (hfc : s'.fcbs = s.fcbs)
    (hen : s'.entries ⊆ s.entries) (hnext : s'.nextEntry = s.nextEntry) : s'.Rooted root := by
  obtain ⟨x, hx, hdr, hc⟩ := h.present
  refine ⟨⟨x, hfcb ▸ hx, hdr, fun e he => ?_⟩, ?_, fun y hy => hnext ▸ h.numbered y (hen hy)⟩
  · obtain ⟨hlt, hnt⟩ := hc e he
    exact ⟨hnext ▸ hlt, fun d hd => hnt d (hen hd)⟩
  · rw [hfcb, hfc]
    exact h.known

theorem newEntry (h : s.Rooted root) (d : DirEntry F) : (s.newEntry d).Rooted root := by
  obtain ⟨x, hx, hdr, hc⟩ := h.present
  refine ⟨⟨x, hx, hdr, fun e he => ?_⟩, h.known, fun y hy => ?_⟩
  · obtain ⟨hlt, hnt⟩ := hc e he
    refine ⟨Nat.lt_succ_of_lt hlt, fun d' hd' => ?_⟩
    rcases mem_cons.1 hd' with heq | hold
    · cases heq
      exact absurd hlt (Nat.lt_irrefl _)
    · exact hnt d' hold
  · rcases mem_cons.1 hy with rfl | hold
    · exact Nat.lt_succ_self _
    · exact Nat.lt_succ_of_lt (h.numbered y hold)

theorem of_mem_newEntry (h : s.Rooted root) {d d' : DirEntry F}
    (hd : (s.nextEntry, d') ∈ (s.newEntry d).entries) : d' = d := by
  rcases mem_cons.1 hd with heq | hold
  · exact (Prod.mk.inj heq).2
  · exact absurd (h.numbered _ hold) (Nat.lt_irrefl _)

end

theorem modify (h : s.Rooted root) {cha : Fcb → Fcb} (hdr : ∀ x, (cha x).fileType = x.fileType)
    (hc : ∀ x, ∀ e ∈ (cha x).children, e ∈ x.children ∨
      e < s.nextEntry ∧ ∀ d, (e, d) ∈ s.entries → d.fcb ≠ root)
    (hs : s.modify f cha = some s') : s'.Rooted root := by
  obtain ⟨y, hy, rfl⟩ := map_eq_some_iff.1 hs
  obtain ⟨x, hx, hxd, hold⟩ := h.present
  refine ⟨?_, fun g hg => ?_, h.numbered⟩
  · by_cases hrt : root = f
    · subst hrt
      rw [hx] at hy
      obtain rfl := some.inj hy
      refine ⟨cha x, by simp only [set, update_self], (hdr x).trans hxd, fun e he => ?_⟩
      exact (hc x e he).elim (hold e) id
    · exact ⟨x, by simp only [set, update_of_ne hrt, hx], hxd, hold⟩
  · by_cases hgf : g = f
    · subst hgf
      exact h.known g (by rw [hy]; exact some_ne_none y)
    · simp only [set, update_of_ne hgf] at hg
      exact h.known g hg

theorem allocate (h : s.Rooted root) (hf : f ≠ root) (ft : FileType) :
    (s.ioAllocateFcb f ft).Rooted root := by
  obtain ⟨x, hx, hdr, hc⟩ := h.present
  refine ⟨⟨x, ?_, hdr, hc⟩, fun g hg => ?_, h.numbered⟩
  · simp only [ioAllocateFcb, set, update_of_ne hf.symm, hx]
  · by_cases hgf : g = f
    · exact hgf ▸ mem_cons_self
    · simp only [ioAllocateFcb, set, update_of_ne hgf] at hg
      exact mem_cons_of_mem _ (h.known g hg)

theorem free (h : s.Rooted root) (hf : f ≠ root) (hs : s.ioFreeFcb f = some s') : s'.Rooted root := by
  obtain ⟨y, -, rfl⟩ := map_eq_some_iff.1 hs
  obtain ⟨x, hx, hdr, hc⟩ := h.present
  refine ⟨⟨x, ?_, hdr, hc⟩, fun g hg => ?_, h.numbered⟩
  · simp only [set, update_of_ne hf.symm, hx]
  · by_cases hgf : g = f
    · subst hgf
      simp only [set, update_self, ne_eq, not_true_eq_false] at hg
    · simp only [set, update_of_ne hgf] at hg
      exact h.known g hg

end Rooted

/-! ## Creating files -/

structure Keeps (s : Tree F) (root : F) (made refs : Multiset F) : Prop where
  books : s.Books made refs
  rooted : s.Rooted root

/-- The counts are right but for the first reference of each FCB, and the root directory stays. -/
def Good (s : Tree F) (root : F) : Prop :=
  ∃ made, s.Keeps root made (refsOf s.entries + (s.fileObjects : Multiset F))

namespace Keeps

variable {made refs refs' : Multiset F}

theorem congr (h : s.Keeps root made refs) (hrf : refs = refs') : s.Keeps root made refs' :=
  hrf ▸ h

theorem reference (h : s.Keeps root made refs) (hs : s.tmpReferenceFcb f = some s') :
    s'.Keeps root made ({f} + refs) ∧ s.Alike s' := by
  obtain ⟨hb, ha⟩ := h.books.reference hs
  exact ⟨⟨hb, h.rooted.alike ha⟩, ha⟩

theorem dereference (h : s.Keeps root made ({f} + refs)) (hs : s.tmpDereferenceFcb f = some s') :
    s'.Keeps root made refs ∧ s.Alike s' := by
  obtain ⟨hb, ha⟩ := h.books.dereference hs
  exact ⟨⟨hb, h.rooted.alike ha⟩, ha⟩

section

variable (h : s.Keeps root made refs)
include h

theorem newEntry (d : DirEntry F) : (s.newEntry d).Keeps root made refs :=
  ⟨h.books.of_fcb rfl, h.rooted.newEntry d⟩

theorem freeEntry (hs : s.freeEntry e = some s') :
    s'.Keeps root made refs := by
  obtain ⟨d, -, rfl⟩ := map_eq_some_iff.1 hs
  exact ⟨h.books.of_fcb rfl, h.rooted.of_fcb rfl rfl eraseP_subset rfl⟩

theorem modify {cha : Fcb → Fcb} (hs : s.modify f cha = some s')
    (hcount : ∀ x, (cha x).referenceCount = x.referenceCount)
    (hdr : ∀ x, (cha x).fileType = x.fileType)
    (hc : ∀ x, ∀ e ∈ (cha x).children, e ∈ x.children ∨
      e < s.nextEntry ∧ ∀ d, (e, d) ∈ s.entries → d.fcb ≠ root) : s'.Keeps root made refs :=
  ⟨h.books.modify hcount hs, h.rooted.modify hdr hc hs⟩

theorem remove (hs : s.removeEntryList f e = some s') :
    s'.Keeps root made refs := by
  unfold removeEntryList at hs
  exact h.modify hs (fun _ => rfl) (fun _ => rfl) fun _ _ he => .inl (mem_of_mem_erase he)

theorem insert (hlt : e < s.nextEntry)
    (hnt : ∀ d, (e, d) ∈ s.entries → d.fcb ≠ root) (hs : s.insertTailList f e = some s') :
    s'.Keeps root made refs := by
  unfold insertTailList at hs
  refine h.modify hs (fun _ => rfl) (fun _ => rfl) fun x e' he' => ?_
  rcases mem_append.1 he' with hold | hw
  · exact .inl hold
  · rw [mem_singleton.1 hw]
    exact .inr ⟨hlt, hnt⟩

/-- The file objects and the mutexes do not matter. -/
theorem of_fcb (hfcb : s'.fcb = s.fcb) (hc : s'.fcbs = s.fcbs)
    (he : s'.entries = s.entries) (hnext : s'.nextEntry = s.nextEntry) :
    s'.Keeps root made refs :=
  ⟨h.books.of_fcb hfcb, h.rooted.of_fcb hfcb hc (he ▸ List.Subset.refl _) hnext⟩

theorem release (hs : s.release f = some s') :
    s'.Keeps root made refs := by
  obtain ⟨x, -, rfl⟩ := map_eq_some_iff.1 hs
  exact h.of_fcb rfl rfl rfl rfl

end

end Keeps

theorem modify_rest {cha : Fcb → Fcb} (hs : s.modify f cha = some s') :
    s'.entries = s.entries ∧ s'.fileObjects = s.fileObjects ∧ s'.nextEntry = s.nextEntry := by
  obtain ⟨x, -, rfl⟩ := map_eq_some_iff.1 hs
  exact ⟨rfl, rfl, rfl⟩

theorem release_rest (hs : s.release f = some s') :
    s'.entries = s.entries ∧ s'.fileObjects = s.fileObjects := by
  obtain ⟨x, -, rfl⟩ := map_eq_some_iff.1 hs
  exact ⟨rfl, rfl⟩

theorem Good.release (h : s.Good root) (hs : s.release f = some s') : s'.Good root := by
  obtain ⟨made, hk⟩ := h
  obtain ⟨he, hb⟩ := release_rest hs
  refine ⟨made, ?_⟩
  rw [he, hb]
  exact hk.release hs

theorem Good.acquire (h : s.Good root) (f : F) : (s.acquire f).Good root := by
  obtain ⟨made, hk⟩ := h
  exact ⟨made, hk.of_fcb rfl rfl rfl rfl⟩

/-- `TmpCreateFile` has made `f`, its file object and, if there is a parent, its entry. -/
structure Created (s : Tree F) (root f : F) (parent : Option (F × Nat)) (name : String)
    (made : Multiset F) (entries : List (Nat × DirEntry F)) (objects : List F) : Prop where
  entries_eq : s.entries = (parent.map fun x => (x.2, ⟨x.1, f, name⟩)).toList ++ entries
  objects_eq : s.fileObjects = f :: objects
  keeps : s.Keeps root (f ::ₘ made) (refsOf s.entries + (s.fileObjects : Multiset F))
  ne_root : f ≠ root
  notMade : f ∉ made
  notRef : f ∉ refsOf entries + (objects : Multiset F)

section

variable {made : Multiset F} {entries : List (Nat × DirEntry F)} {objects : List F} {name : String}
  {parent : Option (F × Nat)}

theorem good_of_undo {n : Nat} {s₁ s₂ : Tree F} (hk : s.Keeps root (f ::ₘ made)
      ({f} + (Multiset.replicate n f + (refsOf s.entries + (objects : Multiset F)))))
    (hob : s.fileObjects = f :: objects) (hrt : f ≠ root) (hmd : f ∉ made)
    (hnt : f ∉ refsOf s.entries + (objects : Multiset F))
    (hs₁ : s.obDereferenceObject f = some s₁) (hs₂ : s₁.ioFreeFcb f = some s₂) : s₂.Good root := by
  have hk₀ : Keeps { s with fileObjects := s.fileObjects.erase f } root (f ::ₘ made)
      ({f} + (Multiset.replicate n f + (refsOf s.entries + (objects : Multiset F)))) :=
    hk.of_fcb rfl rfl rfl rfl
  obtain ⟨hk₁, ha⟩ := hk₀.dereference hs₁
  refine ⟨made, ?_, hk₁.rooted.free hrt hs₂⟩
  have hb := hk₁.books.free hmd hnt hs₂
  obtain ⟨x, -, rfl⟩ := map_eq_some_iff.1 hs₂
  refine hb.congr ?_
  simp only [ha.entries, ha.fileObjects, Tree.set, hob, erase_cons_head]

theorem Created.undo (h : s.Created root f parent name made entries objects)
    (hs : s.undoCreate f parent = some s') : s'.Good root := by
  have hk := h.keeps
  have he := h.entries_eq
  cases parent with
  | none =>
    simp only [undoCreate, bind_eq_bind, bind_some, bind_eq_some_iff] at hs
    obtain ⟨s₂, hs₂, hs₃⟩ := hs
    rw [map_none, toList_none, nil_append] at he
    refine good_of_undo (n := 0) (hk.congr ?_) h.objects_eq h.ne_root h.notMade (he ▸ h.notRef) hs₂ hs₃
    rw [h.objects_eq, Multiset.replicate_zero, ← Multiset.cons_coe, ← Multiset.singleton_add]
    abel
  | some x =>
    obtain ⟨p, e⟩ := x
    simp only [undoCreate, bind_eq_bind, bind_eq_some_iff] at hs
    obtain ⟨t, ht, u, hu, s₁, hs₁, s₂, hs₂, hs₃⟩ := hs
    rw [map_some, toList_some, singleton_append] at he
    obtain ⟨hte, hto, -⟩ := modify_rest ht
    have hku := (hk.remove ht).freeEntry hu
    have hue : u.entries = entries ∧ u.fileObjects = f :: objects := by
      obtain ⟨d, -, rfl⟩ := map_eq_some_iff.1 hu
      rw [hte, he, eraseP_cons_of_pos (by simp only [decide_true])]
      exact ⟨rfl, hto.trans h.objects_eq⟩
    rw [he, refsOf_cons, h.objects_eq] at hku
    obtain ⟨hk₁, ha⟩ := Keeps.dereference (f := p) (hku.congr (by
      rw [add_assoc, add_assoc])) hs₁
    rw [← ha.entries, ← ha.fileObjects] at hue
    obtain ⟨hue, huo⟩ := hue
    refine good_of_undo (n := 1) (hk₁.congr ?_) huo h.ne_root h.notMade (hue ▸ h.notRef) hs₂ hs₃
    rw [hue, Multiset.replicate_one, ← Multiset.cons_coe, ← Multiset.singleton_add]
    abel

/-- The entries `.` and `..` have their references. -/
theorem Good.addDots {dd : F} (h : s.Good root) (hdt : (parent.map Prod.fst).getD f = dd)
    (hs : s.addDots f parent = some s') : s'.Good root := by
  obtain ⟨made, hk⟩ := h
  simp only [Tree.addDots, hdt, bind_eq_bind, bind_eq_some_iff] at hs
  obtain ⟨s₁, hs₁, s₂, hs₂, s₃, hs₃, hs₄⟩ := hs
  obtain ⟨hk₁, ha₁⟩ := ((hk.newEntry ⟨f, f, "."⟩).newEntry ⟨f, dd, ".."⟩).reference hs₁
  obtain ⟨hk₂, ha₂⟩ := hk₁.reference hs₂
  obtain ⟨hk₃, ha₃⟩ := hk₂.reference hs₃
  obtain ⟨hk₄, ha₄⟩ := hk₃.reference hs₄
  have ha := ((ha₁.trans ha₂).trans ha₃).trans ha₄
  refine ⟨made, hk₄.congr ?_⟩
  rw [ha.entries, ha.fileObjects]
  simp only [Tree.newEntry, refsOf_cons]
  abel

theorem Created.finish {c : CreateCall F} {st : TreeStatus}
    (h : s.Created root f parent name made entries objects)
    (hs : s.finishCreate c f parent = some (s', st)) : s'.Good root := by
  unfold finishCreate at hs
  split at hs
  · cases hs
    exact ⟨_, h.keeps⟩
  · rw [bind_eq_bind, bind_eq_some_iff] at hs
    obtain ⟨s₁, hs₁, hs⟩ := hs
    obtain ⟨he, ho, -⟩ := modify_rest hs₁
    have hk₁ : s₁.Keeps root (f ::ₘ made) (refsOf s₁.entries + (s₁.fileObjects : Multiset F)) := by
      rw [he, ho]
      exact h.keeps.modify hs₁ (fun _ => rfl) (fun _ => rfl) fun _ _ he => .inl he
    split at hs
    · obtain ⟨s₂, hs₂, hs⟩ := bind_eq_some_iff.1 hs
      cases hs
      have hc : s₁.Created root f parent name made entries objects :=
        ⟨he.trans h.entries_eq, ho.trans h.objects_eq, hk₁, h.ne_root, h.notMade, h.notRef⟩
      exact hc.undo hs₂
    · obtain ⟨s₂, hs₂, hs⟩ := bind_eq_some_iff.1 hs
      cases hs
      exact Good.addDots ⟨_, hk₁⟩ rfl hs₂

theorem Created.addToParent {c : CreateCall F} {st : TreeStatus}
    (h : s.Created root f none name made entries objects)
    (hs : s.addToParent c f p = some (s', st)) : s'.Good root := by
  have hen : s.entries = entries := h.entries_eq
  simp only [Tree.addToParent, bind_eq_bind, bind_eq_some_iff] at hs
  obtain ⟨s₁, hs₁, s₂, hs₂, hs⟩ := hs
  obtain ⟨hk₁, ha₁⟩ := h.keeps.reference hs₁
  obtain ⟨hk₂, ha₂⟩ := hk₁.reference hs₂
  have ha := ha₁.trans ha₂
  have hb : s₂.fileObjects = f :: objects := ha.fileObjects.trans h.objects_eq
  split at hs
  · simp only [bind_eq_some_iff] at hs
    obtain ⟨s₃, hs₃, s₄, hs₄, s₅, hs₅, s₆, hs₆, hs⟩ := hs
    cases hs
    obtain ⟨hk₃, ha₃⟩ := Keeps.dereference (hk₂.congr (add_left_comm _ _ _)) hs₃
    obtain ⟨hk₄, ha₄⟩ := hk₃.dereference hs₄
    have ha := (ha.trans ha₃).trans ha₄
    refine good_of_undo (n := 0) (hk₄.congr ?_) (ha.fileObjects.trans h.objects_eq) h.ne_root
      h.notMade ?_ hs₅ hs₆
    · rw [h.objects_eq, ha.entries, Multiset.replicate_zero, ← Multiset.cons_coe,
        ← Multiset.singleton_add]
      abel
    · rw [ha.entries, hen]
      exact h.notRef
  · split at hs
    · cases hs
    · simp only [bind_eq_some_iff] at hs
      obtain ⟨s₃, hs₃, s₄, hs₄, hs⟩ := hs
      obtain ⟨he₃, ho₃, -⟩ := modify_rest hs₃
      obtain ⟨he₄, ho₄⟩ := release_rest hs₄
      have hk₃ := Keeps.insert (s := (s₂.newEntry ⟨p, f, entryName c.name⟩).acquire p)
        ((hk₂.newEntry ⟨p, f, entryName c.name⟩).of_fcb rfl rfl rfl rfl) (Nat.lt_succ_self _)
        (fun d hd => by rw [hk₂.rooted.of_mem_newEntry hd]; exact h.ne_root) hs₃
      have hc : s₄.Created root f (some (p, s₂.nextEntry)) (entryName c.name) made entries objects := by
        refine ⟨?_, ?_, (hk₃.release hs₄).congr ?_, h.ne_root, h.notMade, h.notRef⟩
        · rw [he₄, he₃, ← hen, ← ha.entries]
          rfl
        · rw [ho₄, ho₃]
          exact hb
        · rw [he₄, he₃, ho₄, ho₃]
          simp only [acquire, Tree.newEntry, refsOf_cons, ha.entries, ha.fileObjects]
          abel
      exact hc.finish hs

theorem Good.createFile {c : CreateCall F} {st : TreeStatus} (h : s.Good root)
    (hc : ∀ f ∈ c.fcb, f ∉ s.fcbs) (hs : s.tmpCreateFile c = some (s', st)) :
    s'.Good root := by
  obtain ⟨made, hk⟩ := h
  unfold tmpCreateFile at hs
  split at hs
  · cases hs
    exact ⟨made, hk⟩
  · next f hf =>
      have hnn : s.fcb f = none := by
        by_contra hsm
        exact hc f hf (hk.rooted.known f hsm)
      have hrt : f ≠ root := by
        obtain ⟨x, hx, -⟩ := hk.rooted.present
        rintro rfl
        rw [hnn] at hx
        cases hx
      obtain ⟨hmd, hnt⟩ := hk.books.notMem hnn
      have hk₁ : (s.ioAllocateFcb f c.fileType).Keeps root (f ::ₘ made) _ :=
        ⟨hk.books.allocate hnn _, hk.rooted.allocate hrt _⟩
      simp only at hs
      split at hs
      · obtain ⟨s₂, hs₂, hs⟩ := bind_eq_some_iff.1 hs
        cases hs
        refine ⟨made, ?_, hk₁.rooted.free hrt hs₂⟩
        have hb := Books.free (n := 0) (hk₁.books.congr (by rw [Multiset.replicate_zero, zero_add]))
          hmd hnt hs₂
        obtain ⟨x, -, rfl⟩ := map_eq_some_iff.1 hs₂
        exact hb
      · obtain ⟨s₂, hs₂, hs⟩ := bind_eq_some_iff.1 hs
        obtain ⟨t, ht, rfl⟩ := map_eq_some_iff.1 hs₂
        obtain ⟨hk₂, ha⟩ := hk₁.reference ht
        have hcr : Created { t with fileObjects := f :: t.fileObjects } root f none "" made
            s.entries s.fileObjects := by
          refine ⟨ha.entries, ?_, Keeps.of_fcb (s := t) (hk₂.congr ?_) rfl rfl rfl rfl, hrt, hmd, hnt⟩
          · simp only [ha.fileObjects, ioAllocateFcb, Tree.set]
          · simp only [ha.fileObjects, ha.entries, ioAllocateFcb, Tree.set]
            rw [← Multiset.cons_coe, ← Multiset.singleton_add]
            abel
        split at hs
        · exact hcr.finish hs
        · exact hcr.addToParent hs

end

/-! ## Links -/

theorem Good.makeHardLink {nn : String} {dest : F} {mem lock : Bool} {st : TreeStatus}
    (h : s.Good root) (hs : s.tmpMakeHardLink f nn dest mem lock = some (s', st)) :
    s'.Good root := by
  obtain ⟨made, hk⟩ := id h
  unfold tmpMakeHardLink at hs
  obtain ⟨y, hy, hs⟩ := bind_eq_some_iff.1 hs
  split at hs
  · cases hs
    exact h
  · next hfl =>
      have hds : dest ≠ root := by
        obtain ⟨x, hx, hdr, -⟩ := hk.rooted.present
        rintro rfl
        rw [hx] at hy
        exact hfl (some.inj hy ▸ hdr)
      obtain ⟨x, hx, hs⟩ := bind_eq_some_iff.1 hs
      split at hs
      · cases hs
        exact h
      split at hs
      · cases hs
        exact h
      split at hs
      · cases hs
        exact h
      simp only [bind_eq_bind, bind_eq_some_iff] at hs
      obtain ⟨s₁, hs₁, s₂, hs₂, s₃, hs₃, s₄, hs₄, hs⟩ := hs
      cases hs
      obtain ⟨hk₁, ha₁⟩ := Keeps.reference (s := (s.newEntry ⟨f, dest, nn⟩).acquire f)
        ((hk.newEntry ⟨f, dest, nn⟩).of_fcb rfl rfl rfl rfl) hs₁
      obtain ⟨hk₂, ha₂⟩ := hk₁.reference hs₂
      have ha := ha₁.trans ha₂
      obtain ⟨he₃, ho₃, -⟩ := modify_rest hs₃
      have hk₃ := hk₂.insert (e := s.nextEntry) (by rw [ha.nextEntry]; exact Nat.lt_succ_self _)
        (fun d hd => by
          rw [ha.entries] at hd
          rw [hk.rooted.of_mem_newEntry hd]
          exact hds) hs₃
      refine Good.release ⟨made, hk₃.congr ?_⟩ hs₄
      rw [he₃, ho₃, ha.entries, ha.fileObjects]
      simp only [Tree.acquire, Tree.newEntry, refsOf_cons]
      abel

theorem Keeps.dropEntry {made rest : Multiset F} {l : List (Nat × DirEntry F)} {s₁ s₂ : Tree F}
    (h : s.Keeps root made (refsOf l + rest))
    (hd : (l.find? fun x => x.1 = e).map Prod.snd = some d)
    (hs₁ : s.tmpDereferenceFcb d.parentFcb = some s₁) (hs₂ : s₁.tmpDereferenceFcb d.fcb = some s₂) :
    s₂.Keeps root made (refsOf (l.eraseP fun x => x.1 = e) + rest) ∧ s.Alike s₂ := by
  have hk : s.Keeps root made
      ({d.parentFcb} + ({d.fcb} + (refsOf (l.eraseP fun x => x.1 = e) + rest))) :=
    h.congr (by rw [refsOf_entry hd]; abel)
  obtain ⟨hk₁, ha₁⟩ := hk.dereference hs₁
  obtain ⟨hk₂, ha₂⟩ := hk₁.dereference hs₂
  exact ⟨hk₂, ha₁.trans ha₂⟩

theorem Good.unlink {name : String} {lock : Bool} {st : TreeStatus} (h : s.Good root)
    (hs : s.tmpUnlink f name lock = some (s', st)) : s'.Good root := by
  unfold tmpUnlink at hs
  obtain ⟨x, hx, hs⟩ := bind_eq_some_iff.1 hs
  split at hs
  · cases hs
    exact h
  split at hs
  · cases hs
    exact h
  have hlk : (s.acquire f).Good root := h.acquire f
  obtain ⟨found, hfn, hs⟩ := bind_eq_some_iff.1 hs
  cases found with
  | none =>
    obtain ⟨s₁, hs₁, hs⟩ := bind_eq_some_iff.1 hs
    cases hs
    exact hlk.release hs₁
  | some e =>
    obtain ⟨d, hd, hs⟩ := bind_eq_some_iff.1 hs
    obtain ⟨y, hy, hs⟩ := bind_eq_some_iff.1 hs
    split at hs
    · obtain ⟨s₁, hs₁, hs⟩ := bind_eq_some_iff.1 hs
      cases hs
      exact hlk.release hs₁
    · simp only [bind_eq_bind, bind_eq_some_iff] at hs
      obtain ⟨s₁, hs₁, s₂, hs₂, s₃, hs₃, s₄, hs₄, s₅, hs₅, hs⟩ := hs
      cases hs
      obtain ⟨made, hk⟩ := hlk
      obtain ⟨he₁, ho₁, -⟩ := modify_rest hs₁
      rw [← he₁, ← ho₁] at hk
      have hd₁ : s₁.entry e = some d := by rw [entry, he₁]; exact hd
      obtain ⟨hk₃, ha⟩ := (hk.remove hs₁).dropEntry hd₁ hs₂ hs₃
      refine Good.release ⟨made, (hk₃.freeEntry hs₄).congr ?_⟩ hs₅
      obtain ⟨d', -, rfl⟩ := map_eq_some_iff.1 hs₄
      simp only [ha.entries, ha.fileObjects]

omit [DecidableEq F] in
/-- What the loop of `TmpRemoveDir` finds are entries with the names `.` and `..`. -/
theorem findDots_names {es : List Nat} {dot dd dot' dd' : Option Nat}
    (hs : s.findDots es dot dd = some (some (dot', dd')))
    (hdt : ∀ e ∈ dot, (s.entry e).map DirEntry.name = some ".")
    (hdtD : ∀ e ∈ dd, (s.entry e).map DirEntry.name = some "..") :
    (∀ e ∈ dot', (s.entry e).map DirEntry.name = some ".") ∧
      ∀ e ∈ dd', (s.entry e).map DirEntry.name = some ".." := by
  induction es generalizing dot dd with
  | nil =>
    cases hs
    exact ⟨hdt, hdtD⟩
  | cons e es ih =>
    obtain ⟨d, hd, hs⟩ := bind_eq_some_iff.1 hs
    split at hs
    · next h =>
        refine ih hs (fun e' he' => ?_) hdtD
        cases he'
        rw [hd, map_some, h.1]
    · split at hs
      · next h =>
          refine ih hs hdt fun e' he' => ?_
          cases he'
          rw [hd, map_some, h.1]
      · cases hs

theorem Keeps.dereferenceEntry {made rest : Multiset F} {l : List (Nat × DirEntry F)}
    (h : s.Keeps root made (refsOf l + rest))
    (hl : (l.find? fun x => x.1 = e) = s.entries.find? fun x => x.1 = e)
    (hs : s.dereferenceEntry e = some s') :
    s'.Keeps root made (refsOf (l.eraseP fun x => x.1 = e) + rest) ∧ s.Alike s' := by
  obtain ⟨d, hd, hs⟩ := bind_eq_some_iff.1 hs
  obtain ⟨s₁, hs₁, hs₂⟩ := bind_eq_some_iff.1 hs
  exact h.dropEntry (by rw [hl]; exact hd) hs₁ hs₂

omit [DecidableEq F] in
theorem freeEntry_rest (hs : s.freeEntry e = some s') :
    s'.entries = (s.entries.eraseP fun x => x.1 = e) ∧ s'.fileObjects = s.fileObjects := by
  obtain ⟨d, -, rfl⟩ := map_eq_some_iff.1 hs
  exact ⟨rfl, rfl⟩

theorem Good.takeAway {dot : Option Nat} {pe dd : Nat} (h : s.Good root)
    (hne : dot ≠ some dd) (hs : s.takeAway pe dot dd = some s') :
    s'.Good root := by
  obtain ⟨made, hk⟩ := h
  simp only [Tree.takeAway, bind_eq_bind, bind_eq_some_iff] at hs
  obtain ⟨d, hd, s₁, hs₁, s₂, hs₂, s₃, hs₃, dot, rfl, s₄, hs₄, s₅, hs₅, s₆, hs₆, hs₇⟩ := hs
  obtain ⟨he₁, ho₁, -⟩ := modify_rest hs₁
  rw [← he₁, ← ho₁] at hk
  obtain ⟨hk₂, ha₂⟩ := (hk.remove hs₁).dereferenceEntry rfl hs₂
  obtain ⟨he₃, ho₃⟩ := freeEntry_rest hs₃
  rw [← ha₂.entries, ← he₃] at hk₂
  obtain ⟨hk₄, ha₄⟩ := (hk₂.freeEntry hs₃).dereferenceEntry rfl hs₄
  obtain ⟨hk₅, ha₅⟩ := hk₄.dereferenceEntry
    (by rw [find?_eraseP (fun h => hne (congrArg some h)), ha₄.entries]) hs₅
  obtain ⟨he₆, ho₆⟩ := freeEntry_rest hs₆
  obtain ⟨he₇, ho₇⟩ := freeEntry_rest hs₇
  refine ⟨made, ((hk₅.freeEntry hs₆).freeEntry hs₇).congr ?_⟩
  rw [he₇, he₆, ho₇, ho₆, (ha₄.trans ha₅).entries, (ha₄.trans ha₅).fileObjects, ho₃, ha₂.fileObjects]

theorem Good.removeDir {lock lp : Bool} {status : TreeStatus} (h : s.Good root)
    (hs : s.tmpRemoveDir f lock lp = some (s', status)) : s'.Good root := by
  have hrl {s₁ : Tree F} {status' : TreeStatus} (h : s₁.Good root)
      (hs : (do return (← s₁.release f, status')) = some (s', status)) : s'.Good root := by
    obtain ⟨s₂, hs₂, hs⟩ := bind_eq_some_iff.1 hs
    cases hs
    exact h.release hs₂
  unfold tmpRemoveDir at hs
  obtain ⟨x, hx, hs⟩ := bind_eq_some_iff.1 hs
  split at hs
  · cases hs
    exact h
  split at hs
  · cases hs
    exact h
  split at hs
  · exact hrl (h.acquire f) hs
  · next pe hp =>
      obtain ⟨found, hfn, hs⟩ := bind_eq_some_iff.1 hs
      split at hs
      · exact hrl (h.acquire f) hs
      · exact hrl (h.acquire f) hs
      · next dot dotDot =>
          obtain ⟨hdt, hdtD⟩ := findDots_names hfn (by simp) (by simp)
          obtain ⟨d, hd, hs⟩ := bind_eq_some_iff.1 hs
          split at hs
          · cases hs
          split at hs
          · exact hrl (h.acquire f) hs
          · obtain ⟨s₁, hs₁, hs⟩ := bind_eq_some_iff.1 hs
            obtain ⟨s₂, hs₂, hs⟩ := bind_eq_some_iff.1 hs
            have hne : dot ≠ some dotDot := by
              rintro rfl
              have hnm := (hdt dotDot rfl).symm.trans (hdtD dotDot rfl)
              exact absurd hnm (by decide)
            exact hrl ((((h.acquire f).acquire d.fcb).takeAway hne hs₁).release hs₂) hs

theorem Good.close (h : s.Good root) (hf : f ∈ s.fileObjects)
    (hs : s.obDereferenceObject f = some s') : s'.Good root := by
  obtain ⟨made, hk⟩ := h
  have hb : (s.fileObjects : Multiset F) = {f} + (s.fileObjects.erase f : Multiset F) := by
    rw [Multiset.singleton_add, Multiset.cons_coe]
    exact Multiset.coe_eq_coe.2 (perm_cons_erase hf)
  have hk₀ : Keeps { s with fileObjects := s.fileObjects.erase f } root made
      ({f} + (refsOf s.entries + (s.fileObjects.erase f : Multiset F))) := by
    refine Keeps.of_fcb (s := s) (hk.congr ?_) rfl rfl rfl rfl
    rw [hb]
    abel
  obtain ⟨hk₁, ha⟩ := hk₀.dereference hs
  refine ⟨made, hk₁.congr ?_⟩
  rw [ha.entries, ha.fileObjects]

/-! ## Runs -/

theorem Good.step {a : Call F} (h : s.Good root) (hs : s.step a = some s') :
    s'.crashed = true ∨ s'.Good root := by
  unfold Tree.step at hs
  split at hs
  · cases hs
  split at hs
  · next hps =>
      split at hs
      · next t st hp =>
          cases hs
          right
          cases a with
          | createFile c => exact h.createFile hps.1 hp
          | makeHardLink f nn dest mem lock => exact h.makeHardLink hp
          | unlink f name lock => exact h.unlink hp
          | removeDir f lock lp => exact h.removeDir hp
          | close f =>
            obtain ⟨u, hu, heq⟩ := map_eq_some_iff.1 hp
            cases heq
            exact h.close hps hu
      · cases hs
        exact .inl rfl
  · cases hs

/-- The root directory does not contain `.`. -/
theorem Good.not_safe (h : s.Good root) : ¬ s.Safe := by
  intro hsf
  obtain ⟨made, hk⟩ := h
  obtain ⟨x, hx, hdr, hc⟩ := hk.rooted.present
  obtain ⟨⟨e, he, d, hd, -, htr⟩, -⟩ := hsf.dots root x hx hdr
  obtain ⟨y, hy, rfl⟩ := map_eq_some_iff.1 hd
  have hme := mem_of_find?_eq_some hy
  have heq : y.1 = e := by simpa using List.find?_some hy
  exact (hc e he).2 y.2 (heq ▸ hme) htr

theorem mount_eq (root : F) : empty.tmpCreateFile (mountCall root) = some
    (⟨update (fun _ => none) root (some ⟨.directory, 6, none, []⟩), [root], fun _ => 0,
      [(1, ⟨root, root, ".."⟩), (0, ⟨root, root, "."⟩)], 2, [root], [], false⟩, .success) := by
  simp [mountCall, tmpCreateFile, ioCreateFileObject, tmpReferenceFcb, modify, ioAllocateFcb, set,
    finishCreate, addDots, newEntry, empty]

theorem good_mounted (root : F) : (mounted root).Good root := by
  rw [mounted, mount_eq]
  simp only
  refine ⟨{root}, ⟨fun g => ?_, fun g x hx => ?_⟩, 
    ⟨⟨.directory, 6, none, []⟩, by simp, rfl, ?_⟩, ?_, ?_⟩
  · by_cases hg : g = root
    · subst hg
      simp [refsOf]
    · simp [refsOf, hg]
  · by_cases hg : g = root
    · exact Multiset.mem_singleton.2 hg
    · simp only [update_of_ne hg, reduceCtorEq] at hx
  · intro e he
    cases he
  · intro f hf
    by_cases hfr : f = root
    · exact hfr ▸ mem_singleton_self root
    · simp only [update_of_ne hfr, ne_eq, not_true_eq_false] at hf
  · simp

/-- In no state of any run is the tree what it should be. -/
theorem tree_never_safe (h : Reaches step (fun _ _ => True) (mounted root) s) : ¬ s.Safe := by
  have hin := h.invariant (I := fun s => s.crashed = true ∨ s.Good root) (.inr (good_mounted root))
    fun t a u ht _ hs => by
      rcases ht with hc | hgd
      · simp only [step, hc, ↓reduceIte, reduceCtorEq] at hs
      · exact hgd.step hs
  rcases hin with hc | hgd
  · intro hsf
    rw [hsf.uncrashed] at hc
    cases hc
  · exact hgd.not_safe

/-- A file is made in the root directory, unlinked and closed, and a directory is made that is empty. -/
def fileCalls : List (Call Nat) :=
  [.createFile ⟨some 1, true, true, true, true, true, .file, some 0, "a"⟩, .unlink 0 "a" true,
    .close 1, .createFile ⟨some 2, true, true, true, true, true, .directory, some 0, "b"⟩]

/-- Nothing refers to the file, which is still there, and the directory cannot be removed. -/
theorem fileCalls_reaches : ∃ s : Tree Nat, Reaches step (fun _ _ => True) (mounted 0) s ∧
    s.crashed = false ∧ s.entryRefs 1 = 0 ∧ 1 ∉ s.fileObjects ∧
    (s.fcb 1).map Fcb.referenceCount = some 1 ∧ (s.fcb 2).map Fcb.children = some [] ∧
    (s.tmpRemoveDir 2 true true).map Prod.snd = some .directoryNotEmpty := by
  have hrn : (runChecked step (fun _ _ => true) fileCalls (mounted 0)).map (fun s =>
      (s.crashed, s.entryRefs 1, decide (1 ∈ s.fileObjects), (s.fcb 1).map Fcb.referenceCount,
        (s.fcb 2).map Fcb.children, (s.tmpRemoveDir 2 true true).map Prod.snd)) =
      some (false, 0, false, some 1, some [], some .directoryNotEmpty) := rfl
  obtain ⟨s, hs, hp⟩ := map_eq_some_iff.1 hrn
  simp only [Prod.mk.injEq, decide_eq_false_iff_not] at hp
  obtain ⟨h₁, h₂, h₃, h₄, h₅, h₆⟩ := hp
  exact ⟨s, .of_runChecked (fun _ _ _ => trivial) hs, h₁, h₂, h₃, h₄, h₅, h₆⟩

theorem tree_never_safe_fileCalls : ∃ s : Tree Nat,
    Reaches step (fun _ _ => True) (mounted 0) s ∧ s.crashed = false ∧ ¬ s.Safe := by
  obtain ⟨s, hs, hc, -⟩ := fileCalls_reaches
  exact ⟨s, hs, hc, tree_never_safe hs⟩

/-- The tree is wrong from the start, and an FCB stays that nothing refers to. -/
theorem tree_not_safe : (¬ ∀ s : Tree Nat, Reaches step (fun _ _ => True) (mounted 0) s → s.Safe) ∧
    ∃ s : Tree Nat, Reaches step (fun _ _ => True) (mounted 0) s ∧ s.crashed = false ∧
      s.entryRefs 1 = 0 ∧ 1 ∉ s.fileObjects ∧ (s.fcb 1).isSome ∧
      (s.fcb 2).map Fcb.children = some [] ∧
      (s.tmpRemoveDir 2 true true).map Prod.snd = some .directoryNotEmpty := by
  refine ⟨fun h => (good_mounted 0).not_safe (h _ .refl), ?_⟩
  obtain ⟨s, hs, hc, hrf, hb, hcount, hdr⟩ := fileCalls_reaches
  refine ⟨s, hs, hc, hrf, hb, ?_, hdr⟩
  obtain ⟨x, hx, -⟩ := map_eq_some_iff.1 hcount
  rw [hx, isSome_some]

end Tree

end Boron.Tmpfs
