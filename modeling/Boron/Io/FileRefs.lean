import Boron.Io.FileObjects

/-! # FCBs are counted right

`HeapOk s refs` says that the FCBs are counted as the references `refs` say; the routines for FCBs
add one reference or take one away. Where no `ParseDir` method finds anything and no `CreateObject`
method takes a reference, the count of every FCB is the number of its file objects and other
references (`files_safe_of_calm`). The reference of a `ParseDir` method is never given back, nor is that of
`Ext2CreateObject` (`files_not_safe`). -/

namespace Boron.Io.FileObjects

open Function List Option

namespace Files

variable {F : Type} [DecidableEq F] {s s' : Files F} {f : F} {M : Multiset F}

/-! ## FCBs -/

def count (s : Files F) (f : F) : Option Nat := (s.fcb f).map Fcb.referenceCount

structure HeapOk (s : Files F) (M : Multiset F) : Prop where
  counts : Counts s.count M
  positive : ∀ f x, s.fcb f = some x → x.referenceCount ≠ 0
  absent : ∀ f, f ∉ s.fcbs → s.fcb f = none ∧ s.freed f = 0
  freed : ∀ f ∈ s.fcbs, s.freed f = if s.fcb f = none then 1 else 0
  uncrashed : s.crashed = false

/-- The file objects and other references are the same, and the FCBs have the tables they had. -/
structure Keeps (s s' : Files F) : Prop where
  fileObjects : s'.fileObjects = s.fileObjects
  held : s'.held = s.held
  table : ∀ f y, s'.fcb f = some y → ∃ x, s.fcb f = some x ∧ x.dispatchTable = y.dispatchTable

omit [DecidableEq F] in
theorem Keeps.trans {s'' : Files F} (h : Keeps s s') (h' : Keeps s' s'') : Keeps s s'' where
  fileObjects := h'.fileObjects.trans h.fileObjects
  held := h'.held.trans h.held
  table := fun f z hz => by
    obtain ⟨y, hy, hb⟩ := h'.table f z hz
    obtain ⟨x, hx, hb'⟩ := h.table f y hy
    exact ⟨x, hx, hb'.trans hb⟩

omit [DecidableEq F] in
theorem Plain.of_table (h : s.Plain f) (hb : ∀ f y, s'.fcb f = some y →
    ∃ x, s.fcb f = some x ∧ x.dispatchTable = y.dispatchTable) : s'.Plain f := by
  intro y hy
  obtain ⟨x, hx, heq⟩ := hb f y hy
  rw [← heq]
  exact h x hx

theorem HeapOk.of_eq (h : HeapOk s M) (hfcb : s'.fcb = s.fcb) (hfc : s'.fcbs = s.fcbs)
    (hfreed : s'.freed = s.freed) (hc : s'.crashed = s.crashed) : HeapOk s' M where
  counts := by
    have hcount : s'.count = s.count := funext fun f => by rw [count, count, hfcb]
    rw [hcount]
    exact h.counts
  positive := by
    rw [hfcb]
    exact h.positive
  absent := by
    rw [hfcb, hfc, hfreed]
    exact h.absent
  freed := by
    rw [hfcb, hfc, hfreed]
    exact h.freed
  uncrashed := hc.trans h.uncrashed

theorem count_set (s : Files F) (f : F) (x : Option Fcb) :
    (s.set f x).count = update s.count f (x.map Fcb.referenceCount) := by
  funext g
  by_cases hg : g = f
  · simp [count, set, hg]
  · simp [count, set, update_of_ne hg]

theorem fcb_set (s : Files F) (f g : F) (x : Option Fcb) :
    (s.set f x).fcb g = if g = f then x else s.fcb g := by
  by_cases hg : g = f
  · simp [set, hg]
  · simp [set, hg]

/-- What is referred to is there. -/
theorem HeapOk.live (h : HeapOk s M) (hf : f ∈ M) : ∃ x, s.fcb f = some x := by
  obtain ⟨n, hn⟩ := h.counts.exists_succ hf
  obtain ⟨x, hx, -⟩ := map_eq_some_iff.1 hn
  exact ⟨x, hx⟩

theorem HeapOk.mem_fcbs (h : HeapOk s M) (hf : f ∈ M) : f ∈ s.fcbs := by
  by_contra hnt
  obtain ⟨x, hx⟩ := h.live hf
  rw [(h.absent f hnt).1] at hx
  cases hx

theorem HeapOk.set_some {M' : Multiset F} (h : HeapOk s M) {x y : Fcb} (hx : s.fcb f = some x)
    (hy : y.referenceCount ≠ 0)
    (hc : Counts (update s.count f (some y.referenceCount)) M') :
    HeapOk (s.set f (some y)) M' where
  counts := by
    rw [count_set]
    exact hc
  positive := fun g z hz => by
    rw [fcb_set] at hz
    split at hz
    · cases hz
      exact hy
    · exact h.positive g z hz
  absent := fun g hg => by
    have hne : g ≠ f := by
      rintro rfl
      rw [(h.absent g hg).1] at hx
      cases hx
    rw [fcb_set, if_neg hne]
    exact h.absent g hg
  freed := fun g hg => by
    have := h.freed g hg
    rw [fcb_set]
    split
    · next heq =>
        subst heq
        simpa [hx, set] using this
    · exact this
  uncrashed := h.uncrashed

theorem keeps_set {x y : Fcb} (hx : s.fcb f = some x) (hb : y.dispatchTable = x.dispatchTable) :
    Keeps s (s.set f (some y)) := by
  refine ⟨rfl, rfl, fun g z hz => ?_⟩
  rw [fcb_set] at hz
  split at hz
  · next heq =>
      cases hz
      exact ⟨x, heq ▸ hx, hb.symm⟩
  · exact ⟨z, hz, rfl⟩

theorem HeapOk.reference (h : HeapOk s M) (hf : f ∈ M) :
    HeapOk (s.ioReferenceFcb f) (f ::ₘ M) ∧ Keeps s (s.ioReferenceFcb f) := by
  obtain ⟨x, hx⟩ := h.live hf
  have heq : s.ioReferenceFcb f = s.set f (some { x with referenceCount := x.referenceCount + 1 }) := by
    simp only [ioReferenceFcb, hx]
  rw [heq]
  refine ⟨h.set_some hx (Nat.succ_ne_zero _) ?_, keeps_set hx rfl⟩
  exact h.counts.reference (by rw [count, hx]; rfl)

/-- The last reference is gone. -/
theorem HeapOk.free (h : HeapOk s (f ::ₘ M)) (hf : f ∉ M) :
    HeapOk (s.ioFreeFcb f) M ∧ Keeps s (s.ioFreeFcb f) := by
  obtain ⟨x, hx⟩ := h.live (Multiset.mem_cons_self f M)
  have heq : s.ioFreeFcb f = { s.set f none with freed := update s.freed f (s.freed f + 1) } := by
    simp [ioFreeFcb, hx]
  have hfcb (g : F) : (s.ioFreeFcb f).fcb g = if g = f then none else s.fcb g := by
    rw [heq]
    exact fcb_set s f g none
  have hfreed (g : F) : (s.ioFreeFcb f).freed g = if g = f then s.freed f + 1 else s.freed g := by
    rw [heq]
    exact update_apply _ _ _ _
  have hme : f ∈ s.fcbs := h.mem_fcbs (Multiset.mem_cons_self f M)
  have hc : (s.ioFreeFcb f).fcbs = s.fcbs := by rw [heq]; rfl
  refine ⟨⟨?_, fun g y hy => ?_, fun g hg => ?_, fun g hg => ?_, ?_⟩, ?_, ?_, fun g y hy => ?_⟩
  · have hcount : (s.ioFreeFcb f).count = update s.count f none := by
      rw [heq]
      exact count_set s f none
    rw [hcount]
    refine h.counts.update (Multiset.count_eq_zero.2 hf) fun g hg => ?_
    rw [Multiset.count_cons_of_ne hg]
  · rw [hfcb] at hy
    split at hy
    · cases hy
    · exact h.positive g y hy
  · rw [hc] at hg
    have hne : g ≠ f := fun heq => hg (heq ▸ hme)
    rw [hfcb, hfreed, if_neg hne, if_neg hne]
    exact h.absent g hg
  · rw [hc] at hg
    have hold := h.freed g hg
    rw [hfcb, hfreed]
    by_cases hgf : g = f
    · subst hgf
      rw [hx, if_neg nofun] at hold
      rw [if_pos rfl, if_pos rfl, if_pos rfl, hold]
    · rw [if_neg hgf, if_neg hgf]
      exact hold
  · rw [heq]
    exact h.uncrashed
  · rw [heq]
    rfl
  · rw [heq]
    rfl
  · rw [hfcb] at hy
    split at hy
    · cases hy
    · exact ⟨y, hy, rfl⟩

theorem HeapOk.dereference (h : HeapOk s (f ::ₘ M)) :
    HeapOk (s.ioDereferenceFcb f) M ∧ Keeps s (s.ioDereferenceFcb f) := by
  obtain ⟨x, hx⟩ := h.live (Multiset.mem_cons_self f M)
  obtain ⟨n, hn⟩ : ∃ n, x.referenceCount = n + 1 := Nat.exists_eq_succ_of_ne_zero (h.positive f x hx)
  have hcount : s.count f = some (n + 1) := by
    rw [count, hx, ← hn]
    rfl
  have hp : x.referenceCount - 1 = n := by omega
  simp only [ioDereferenceFcb, hx, hp]
  have hfM : M.count f = n := by
    have := h.counts.count_eq hcount
    rw [Multiset.count_cons_self] at this
    omega
  split
  · next hz =>
      -- The count that is written before the FCB is freed is not looked at again.
      have heq : (s.set f (some { x with referenceCount := n })).ioFreeFcb f = s.ioFreeFcb f := by
        simp [ioFreeFcb, set, hx]
      rw [heq]
      refine h.free (Multiset.count_eq_zero.1 (hfM.trans hz))
  · next hne =>
      exact ⟨h.set_some hx hne (h.counts.dereference hcount), keeps_set hx rfl⟩

theorem HeapOk.allocate (h : HeapOk s M) (hf : f ∉ s.fcbs) (dt : DispatchTable) :
    HeapOk (s.ioAllocateFcb f dt) (f ::ₘ M) := by
  have hnn := h.absent f hf
  have hfcb (g : F) : (s.ioAllocateFcb f dt).fcb g
      = if g = f then some ⟨dt, 1⟩ else s.fcb g := fcb_set s f g _
  refine ⟨?_, fun g y hy => ?_, fun g hg => ?_, fun g hg => ?_, h.uncrashed⟩
  · have hcount : (s.ioAllocateFcb f dt).count = update s.count f (some 1) :=
      count_set s f _
    rw [hcount, ← Multiset.singleton_add, ← Multiset.replicate_one]
    exact h.counts.create (by rw [count, hnn.1]; rfl) 1
  · rw [hfcb] at hy
    split at hy
    · cases hy
      exact Nat.one_ne_zero
    · exact h.positive g y hy
  · have hg' := not_mem_of_not_mem_cons hg
    rw [hfcb, if_neg (ne_of_not_mem_cons hg)]
    exact h.absent g hg'
  · rw [hfcb]
    show s.freed g = _
    by_cases hgf : g = f
    · rw [hgf, if_pos rfl, if_neg nofun, hnn.2]
    · rw [if_neg hgf]
      exact h.freed g ((mem_cons.1 hg).resolve_left hgf)

/-! ## File objects -/

/-- All references: those of file objects, and the others. -/
def refs (s : Files F) : Multiset F := ↑s.fileObjects + ↑s.held

structure Inv (s : Files F) : Prop where
  heap : HeapOk s s.refs
  plain : ∀ f ∈ s.fileObjects, s.Plain f

theorem inv_start : (start : Files F).Inv where
  heap := {
    counts := fun f => by simp [refs, start, count]
    positive := fun f x hx => by cases hx
    absent := fun f _ => ⟨rfl, rfl⟩
    freed := fun f hf => by cases hf
    uncrashed := rfl }
  plain := fun f hf => by cases hf

/-- A file object is created on a plain FCB, which gets one reference; or there is no memory for
it. -/
theorem createFileObject_spec (h : HeapOk s M) (hf : f ∈ M) {mem : Bool} (hp : mem = true → s.Plain f) :
    (s.ioCreateFileObject f mem = (false, s) ∧ mem = false) ∨ ∃ s₁, s.ioCreateFileObject f mem
          = (true, { s₁ with fileObjects := f :: s₁.fileObjects }) ∧ mem = true ∧
        HeapOk s₁ (f ::ₘ M) ∧ Keeps s s₁ := by
  cases mem with
  | false => exact .inl ⟨rfl, rfl⟩
  | true =>
    obtain ⟨x, hx⟩ := h.live hf
    have hz := (hp rfl x hx).1
    refine .inr ⟨s.ioReferenceFcb f, ?_, rfl, (h.reference hf).1, (h.reference hf).2⟩
    simp only [ioCreateFileObject, hx, hz]
    rfl

theorem deleteFile_spec (h : HeapOk s (f ::ₘ M)) (hp : s.Plain f) : HeapOk (s.iopDeleteFile f) M ∧
      Keeps { s with fileObjects := s.fileObjects.erase f } (s.iopDeleteFile f) := by
  obtain ⟨x, hx⟩ := h.live (Multiset.mem_cons_self f M)
  have hz := (hp x hx).2
  have heq : s.iopDeleteFile f
      = ioDereferenceFcb { s with fileObjects := s.fileObjects.erase f } f := by
    simp only [iopDeleteFile, hx, hz]
    rfl
  rw [heq]
  exact HeapOk.dereference (h.of_eq rfl rfl rfl rfl)

namespace Inv

/-- A step changes the lists as its routine changes the counts. -/
theorem of_heap (h : s.Inv) (hh : HeapOk s' s'.refs)
    (hb : ∀ f ∈ s'.fileObjects, s.fcb f ≠ none → ∀ y, s'.fcb f = some y →
      ∃ x, s.fcb f = some x ∧ x.dispatchTable = y.dispatchTable)
    (hw : ∀ f ∈ s'.fileObjects, f ∈ s.fileObjects ∨ s'.Plain f) : s'.Inv where
  heap := hh
  plain := fun f hf => by
    obtain hold | hp := hw f hf
    · intro y hy
      obtain ⟨x, hx⟩ := h.heap.live (f := f) (Multiset.mem_add.2 (.inl hold))
      obtain ⟨z, hz, heq⟩ := hb f hf (by simp [hx]) y hy
      rw [← heq]
      exact h.plain f hold z hz
    · exact hp

theorem ne_none (h : s.Inv) (hf : f ∉ s.fcbs) {g : F} (hg : s.fcb g ≠ none) : g ≠ f :=
  fun heq => hg (heq ▸ (h.heap.absent f hf).1)

theorem create (h : s.Inv) (hf : f ∈ s.refs) {mem : Bool} (hp : mem = true → s.Plain f) :
    (s.ioCreateFileObject f mem).2.Inv := by
  obtain ⟨heq, -⟩ | ⟨s₁, heq, hmr, hh, hkp⟩ := createFileObject_spec h.heap hf hp
  · rw [heq]
    exact h
  · rw [heq]
    refine h.of_heap ?_ (fun g _ _ y hy => hkp.table g y hy) fun g hg => ?_
    · have hrf : refs { s₁ with fileObjects := f :: s₁.fileObjects } = f ::ₘ s.refs := by
        simp only [refs, hkp.fileObjects, hkp.held, ← Multiset.cons_coe, Multiset.cons_add]
      rw [hrf]
      exact hh.of_eq rfl rfl rfl rfl
    · obtain rfl | hold := mem_cons.1 hg
      · exact .inr ((hp hmr).of_table hkp.table)
      · exact .inl (hkp.fileObjects ▸ hold)

theorem callParse (h : s.Inv) (hf : f ∈ s.fileObjects) {par : Parsed F} {mem : Bool}
    (hc : s.Calm (.open f par mem)) : (s.iopCallParse f par mem).Inv := by
  have hme : f ∈ s.refs := Multiset.mem_add.2 (.inl hf)
  obtain ⟨x, hx⟩ := h.heap.live hme
  simp only [iopCallParse, hx]
  by_cases hp : x.dispatchTable.parseDir = true
  · rw [if_pos hp, hc x hx hp]
    exact h
  · rw [if_neg hp]
    split
    · exact h.create hme fun _ => h.plain f hf
    · exact h

theorem delete (h : s.Inv) (hf : f ∈ s.fileObjects) : (s.iopDeleteFile f).Inv := by
  have hrf : s.refs = f ::ₘ (↑(s.fileObjects.erase f) + ↑s.held) := by
    have hp := Multiset.coe_eq_coe.2 (perm_cons_erase hf)
    rw [refs, hp, ← Multiset.cons_coe, Multiset.cons_add]
  have hh := h.heap
  rw [hrf] at hh
  obtain ⟨hh', hkp⟩ := deleteFile_spec hh (h.plain f hf)
  refine h.of_heap ?_ (fun g _ _ y hy => hkp.table g y hy) fun g hg => .inl ?_
  · have hrf' : (s.iopDeleteFile f).refs = ↑(s.fileObjects.erase f) + ↑s.held := by
      rw [refs, hkp.fileObjects, hkp.held]
    rw [hrf']
    exact hh'
  · exact mem_of_mem_erase (hkp.fileObjects ▸ hg)

theorem pipe (h : s.Inv) (hf : f ∉ s.fcbs) (handle : Bool) :
    (s.ioCreatePipe ⟨false, some f, true, handle⟩).Inv := by
  have hhp₀ := h.heap.allocate hf iopPipeDispatchTable
  have hfcb₀ (g : F) : (s.ioAllocateFcb f iopPipeDispatchTable).fcb g
      = if g = f then some ⟨iopPipeDispatchTable, 1⟩ else s.fcb g := fcb_set s f g _
  have hpl₀ : (s.ioAllocateFcb f iopPipeDispatchTable).Plain f := by
    intro x hx
    rw [hfcb₀, if_pos rfl] at hx
    cases hx
    exact ⟨rfl, rfl⟩
  obtain ⟨-, hmr⟩ | ⟨s₁, heq, -, hhp₁, hkp₁⟩ := createFileObject_spec hhp₀
    (Multiset.mem_cons_self f _) fun _ : true = true => hpl₀
  · cases hmr
  have hp : s.ioCreatePipe ⟨false, some f, true, handle⟩
      = if handle then ioDereferenceFcb { s₁ with fileObjects := f :: s₁.fileObjects } f
        else (iopDeleteFile { s₁ with fileObjects := f :: s₁.fileObjects } f).ioFreeFcb f := by
    simp [ioCreatePipe, ioCreatePipeObject, heq]
  have hfl : s₁.fileObjects = s.fileObjects := hkp₁.fileObjects
  have hh : s₁.held = s.held := hkp₁.held
  have hhp₂ : HeapOk { s₁ with fileObjects := f :: s₁.fileObjects } (f ::ₘ f ::ₘ s.refs) :=
    hhp₁.of_eq rfl rfl rfl rfl
  have hb (s' : Files F) (hkp : ∀ g y, s'.fcb g = some y →
        ∃ x, s₁.fcb g = some x ∧ x.dispatchTable = y.dispatchTable) (g : F) (hg : s.fcb g ≠ none)
      (y : Fcb) (hy : s'.fcb g = some y) :
      ∃ x, s.fcb g = some x ∧ x.dispatchTable = y.dispatchTable := by
    obtain ⟨x, hx, hb⟩ := hkp g y hy
    obtain ⟨z, hz, hb'⟩ := hkp₁.table g x hx
    rw [hfcb₀, if_neg (h.ne_none hf hg)] at hz
    exact ⟨z, hz, hb'.trans hb⟩
  rw [hp]
  split
  · obtain ⟨hhp₃, hkp₃⟩ := hhp₂.dereference
    refine h.of_heap ?_ (fun g _ => hb _ hkp₃.table g) fun g hg => ?_
    · rw [refs, hkp₃.fileObjects, hkp₃.held]
      simpa [refs, hfl, hh, ← Multiset.cons_coe] using hhp₃
    · rw [hkp₃.fileObjects] at hg
      obtain rfl | hold := mem_cons.1 hg
      · exact .inr ((hpl₀.of_table hkp₁.table).of_table hkp₃.table)
      · exact .inl (hfl ▸ hold)
  · obtain ⟨hhp₃, hkp₃⟩ := deleteFile_spec hhp₂ (hpl₀.of_table hkp₁.table)
    have hnt : f ∉ s.refs := fun hme => hf (h.heap.mem_fcbs hme)
    obtain ⟨hhp₄, hkp₄⟩ := hhp₃.free hnt
    have hfl' : ((iopDeleteFile { s₁ with fileObjects := f :: s₁.fileObjects } f).ioFreeFcb
        f).fileObjects = s.fileObjects := by
      rw [hkp₄.fileObjects, hkp₃.fileObjects]
      simp [hfl]
    refine h.of_heap ?_ (fun g _ => hb _ (hkp₃.trans hkp₄).table g) fun g hg => .inl ?_
    · rw [refs, hfl', hkp₄.held, hkp₃.held]
      rw [refs, ← hh] at hhp₄
      exact hhp₄
    · exact hfl' ▸ hg

theorem step (h : s.Inv) {a : Action F} (hc : s.Calm a) (hs : s.step a = some s') : s'.Inv := by
  simp only [Files.step] at hs
  split at hs
  · cases hs
  next hcn =>
  have hfr : s.fresh a = true := by
    simp only [Bool.or_eq_true, not_or, Bool.not_eq_true, Bool.not_eq_false'] at hcn
    exact hcn.2
  cases a with
  | create f dt =>
    cases hs
    have hf : f ∉ s.fcbs := by simpa [fresh] using hfr
    refine h.of_heap ?_ (fun g _ hg y hy => ?_) fun g hg => .inl hg
    · have hrf : refs { s.ioAllocateFcb f dt with held := f :: s.held } = f ::ₘ s.refs := by
        simp only [refs, ← Multiset.cons_coe, Multiset.add_cons]
        rfl
      rw [hrf]
      exact (h.heap.allocate hf dt).of_eq rfl rfl rfl rfl
    · refine ⟨y, ?_, rfl⟩
      rw [← hy]
      exact (update_of_ne (h.ne_none hf hg) _ _).symm
  | reference f =>
    simp only at hs
    split at hs
    · next hme =>
        cases hs
        have hrf : f ∈ s.refs := by
          rw [refs, Multiset.mem_add, Multiset.mem_coe, Multiset.mem_coe]
          exact hme.symm
        obtain ⟨hh, hkp⟩ := h.heap.reference hrf
        refine h.of_heap ?_ (fun g _ _ y hy => hkp.table g y hy) fun g hg =>
          .inl (hkp.fileObjects ▸ hg)
        have hrf' : refs { s.ioReferenceFcb f with held := f :: s.held } = f ::ₘ s.refs := by
          simp only [refs, hkp.fileObjects, ← Multiset.cons_coe, Multiset.add_cons]
        rw [hrf']
        exact hh.of_eq rfl rfl rfl rfl
    · cases hs
  | dereference f =>
    simp only at hs
    split at hs
    · next hme =>
        cases hs
        have hrf : s.refs = f ::ₘ (↑s.fileObjects + ↑(s.held.erase f)) := by
          have hp := Multiset.coe_eq_coe.2 (perm_cons_erase hme)
          rw [refs, hp, ← Multiset.cons_coe, Multiset.add_cons]
        have hh : HeapOk { s with held := s.held.erase f }
            (f ::ₘ (↑s.fileObjects + ↑(s.held.erase f))) := hrf ▸ h.heap.of_eq rfl rfl rfl rfl
        obtain ⟨hh', hkp⟩ := hh.dereference
        refine h.of_heap ?_ (fun g _ _ y hy => hkp.table g y hy) fun g hg =>
          .inl (hkp.fileObjects ▸ hg)
        rw [refs, hkp.fileObjects, hkp.held]
        exact hh'
    · cases hs
  | «open» f parsed mem =>
    simp only at hs
    split at hs
    · next hme =>
        cases hs
        exact h.callParse hme.1 hc
    · cases hs
  | openDevice f mem =>
    simp only at hs
    split at hs
    · next hme =>
        cases hs
        exact h.create (Multiset.mem_add.2 (.inr hme)) hc
    · cases hs
  | deleteFile f =>
    simp only at hs
    split at hs
    · next hme =>
        cases hs
        exact h.delete hme
    · cases hs
  | createPipe c =>
    cases hs
    obtain ⟨hnm, hfcb, hmr⟩ := hc
    obtain ⟨named, fcb, mem, handle⟩ := c
    obtain ⟨f, rfl⟩ := isSome_iff_exists.1 hfcb
    obtain rfl : named = false := hnm
    obtain rfl : mem = true := hmr
    exact h.pipe (by simpa [fresh] using hfr) handle

theorem safe (h : s.Inv) : s.Safe where
  counted := fun f x hx => by
    have hcount := h.heap.counts.count_eq (o := f) (n := x.referenceCount) (by rw [count, hx]; rfl)
    rw [← hcount, refs, Multiset.count_add, Multiset.coe_count, Multiset.coe_count]
  live := fun f hf hrf => by
    obtain ⟨x, hx⟩ := h.heap.live (f := f) (by
      rw [refs, Multiset.mem_add, Multiset.mem_coe, Multiset.mem_coe]
      exact hrf)
    refine ⟨by simp [hx], ?_⟩
    rw [h.heap.freed f hf, hx, if_neg nofun]
  freed := fun f hf hfl hh => by
    have hnn : s.fcb f = none := by
      by_contra hsm
      obtain ⟨x, hx⟩ := ne_none_iff_exists'.1 hsm
      have hcount := h.heap.counts.count_eq (o := f) (n := x.referenceCount) (by rw [count, hx]; rfl)
      refine h.heap.positive f x hx (hcount.symm.trans (Multiset.count_eq_zero.2 ?_))
      rw [refs, Multiset.mem_add, Multiset.mem_coe, Multiset.mem_coe, not_or]
      exact ⟨hfl, hh⟩
    exact ⟨hnn, by rw [h.heap.freed f hf, if_pos hnn]⟩
  uncrashed := h.heap.uncrashed

end Inv

/-! ## Runs -/

/-- **FCBs are counted right**, and freed once, with their last reference, in every run of calm
steps. -/
theorem files_safe_of_calm (h : Reaches step Calm start s) : s.Safe :=
  (h.invariant (I := Inv) inv_start fun _ _ _ hi hc hs => hi.step hc hs).safe

/-- A pipe is created, and its only file object deleted. -/
theorem files_safe_of_calm_pipe : ∃ s : Files Nat, Reaches step Calm start s ∧ s.freed 0 = 1 ∧ s.Safe := by
  have hrn : (runChecked step (fun _ _ => true)
      [.createPipe ⟨false, some 0, true, true⟩, .deleteFile 0] start).map
        (fun s : Files Nat => s.freed 0) = some 1 := by decide
  obtain ⟨s, hs, hfreed⟩ := map_eq_some_iff.1 hrn
  have hc : Reaches step Calm start s := by
    refine .of_runChecked_mem (fun s a ha _ => ?_) hs
    rcases mem_pair.1 ha with rfl | rfl
    · exact ⟨rfl, rfl, rfl⟩
    · trivial
  exact ⟨s, hc, hfreed, files_safe_of_calm hc⟩

/-- The table of a driver like `tmpfs`, whose file objects take no references of their own. -/
def directoryTable : DispatchTable := ⟨true, false, none, none⟩

/-- A directory is opened, and from it a file that has no other reference than the directory's: the
reference of `ParseDir` stays. -/
theorem files_not_safe : ¬ ∀ (F : Type) [DecidableEq F] (s : Files F),
    Reaches step (fun _ _ => True) start s → s.Safe := by
  intro h
  have hrn : (runChecked step (fun _ _ => true) [.create 0 directoryTable,
      .create 1 directoryTable, .openDevice 0 true, .open 0 (.found 1) true] start).map
      (fun s : Files Nat => (s.fcb 1, s.fileObjects, s.held))
        = some (some ⟨directoryTable, 3⟩, [1, 0], [1, 0]) := by decide
  obtain ⟨s, hs, he⟩ := map_eq_some_iff.1 hrn
  have hsf := h Nat s (.of_runChecked (fun _ _ _ => trivial) hs)
  simp only [Prod.mk.injEq] at he
  obtain ⟨hfcb, hfl, hh⟩ := he
  have hcount := hsf.counted 1 _ hfcb
  rw [hfl, hh] at hcount
  exact absurd hcount (by decide)

end Files

end Boron.Io.FileObjects
