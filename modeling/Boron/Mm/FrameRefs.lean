import Boron.Lib.Holders
import Boron.Mm.CommitLoops
import Boron.Mm.Fault

/-! # Reference counts of page frames

A frame is held by the page table entries that map it and by the entries of sections and overlays
that own it; an entry of a page cache does not hold its frame. `Accounts p s hand` says that every
reference count is the number of these holders and of the references in `hand`, which belong to the
code that runs or to someone outside. Each operation on objects and page tables moves references
between the hand and the holders, and has one rule that says how. -/

namespace Boron.Mm

open Function List Option

variable {T Page : Type} {p : Port}

/-! ## Holders -/

/-- The frame that an entry holds. -/
def Pte.frame : Pte → Option Nat
  | .present f _ true => some f
  | _ => none

theorem freedFrames_eq (e : Pte) : PageTables.freedFrames e = e.frame.toList := by
  cases e with
  | present f w pmm => cases pmm <;> rfl
  | absent hardware => rfl

theorem Pte.frame_of_absent {e : Pte} (h : mmIsPresentPte e = false) : e.frame = none := by
  cases e with
  | present f w pmm => cases h
  | absent hardware => rfl

/-- Memory that comes from the allocator is marked so. -/
def Pte.FromPmm (e : Pte) : Prop := ∀ f w pmm, e = .present f w pmm → pmm = true

theorem Pte.fromPmm_of_absent {e : Pte} (h : mmIsPresentPte e = false) : e.FromPmm := by
  rintro f w pmm rfl
  cases h

theorem Pte.fromPmm_present (f : Nat) (w : Bool) : (Pte.present f w true).FromPmm := by
  rintro f' w' pmm ⟨⟩
  rfl

theorem Pte.FromPmm.frame {f : Nat} {w pmm : Bool} (h : (Pte.present f w pmm).FromPmm) :
    (Pte.present f w pmm).frame = some f := by
  rw [h f w pmm rfl]
  rfl

/-- The frames that an answer comes with. -/
def PageAnswer.frames : PageAnswer → List Nat
  | .page f => [f]
  | _ => []

namespace Machine

/-- The frame that a page of a process holds. -/
def mapped (p : Port) (s : Machine T Page) (x : Nat × Nat) : Option Nat :=
  ((s.memory x.1).tables.view p x.2).frame

/-- The frame that an entry of an object owns. -/
def owned (s : Machine T Page) (x : Nat × Nat) : Option Nat :=
  match (s.object x.1).kind with
  | .fileObject => none
  | _ => s.mmLookUpEntrySla x.1 x.2

/-- Every reference is that of a holder or in hand. -/
structure Accounts (p : Port) (s : Machine T Page) (hand : List Nat) : Prop where
  count : ∀ f, s.refCount f = tally (s.mapped p) f + tally s.owned f + hand.count f
  fewMapped : Few (s.mapped p)
  fewOwned : Few s.owned
  fromPmm : ∀ proc page, ((s.memory proc).tables.view p page).FromPmm
  keys : ∀ o, ((s.object o).sla.map Prod.fst).Nodup

/-- The processes and what the objects are do not change. -/
structure SameShape (s s' : Machine T Page) : Prop where
  memory : s'.memory = s.memory
  kind : ∀ o, (s'.object o).kind = (s.object o).kind

theorem SameShape.refl (s : Machine T Page) : SameShape s s := ⟨rfl, fun _ => rfl⟩

theorem SameShape.trans {s s' s'' : Machine T Page} (h : SameShape s s') (h' : SameShape s' s'') :
    SameShape s s'' :=
  ⟨h'.memory.trans h.memory, fun o => (h'.kind o).trans (h.kind o)⟩

variable {s s' : Machine T Page} {hand hand' : List Nat} {f g o i : Nat}

theorem Accounts.perm (h : Accounts p s hand) (hp : hand.Perm hand') : Accounts p s hand' :=
  { h with count := fun f => by rw [h.count f, hp.count_eq] }

/-! ## Frames -/

theorem Accounts.addReference (h : Accounts p s hand) (f : Nat) :
    Accounts p (s.mmPageAddReference f) (f :: hand) where
  count g := by
    have := h.count g
    change update s.refCount f (s.refCount f + 1) g =
      tally (s.mapped p) g + tally s.owned g + (f :: hand).count g
    by_cases hg : g = f
    · subst hg
      rw [update_self, count_cons_self]
      omega
    · rw [update_of_ne hg, count_cons_of_ne (Ne.symm hg), this]
  fewMapped := h.fewMapped
  fewOwned := h.fewOwned
  fromPmm := h.fromPmm
  keys := h.keys

theorem Accounts.free (h : Accounts p s (f :: hand)) : Accounts p (s.mmFreePhysicalPage f) hand where
  count g := by
    have := h.count g
    change update s.refCount f (s.refCount f - 1) g =
      tally (s.mapped p) g + tally s.owned g + hand.count g
    by_cases hg : g = f
    · subst hg
      rw [count_cons_self] at this
      rw [update_self]
      omega
    · rw [count_cons_of_ne (Ne.symm hg)] at this
      rw [update_of_ne hg, this]
  fewMapped := h.fewMapped
  fewOwned := h.fewOwned
  fromPmm := h.fromPmm
  keys := h.keys

theorem sameShape_free (s : Machine T Page) (f : Nat) : SameShape s (s.mmFreePhysicalPage f) :=
  ⟨rfl, fun _ => rfl⟩

theorem sameShape_setContent (s : Machine T Page) (f : Nat) (c : Page) :
    SameShape s (s.setContent f c) :=
  ⟨rfl, fun _ => rfl⟩

theorem Accounts.freeAll {fra : List Nat} (h : Accounts p s (fra ++ hand)) :
    Accounts p (s.freeAll fra) hand := by
  induction fra generalizing s with
  | nil => exact h
  | cons f fra ih => exact ih h.free

theorem Accounts.setContent (h : Accounts p s hand) (f : Nat) (c : Page) :
    Accounts p (s.setContent f c) hand :=
  ⟨h.count, h.fewMapped, h.fewOwned, h.fromPmm, h.keys⟩

theorem Accounts.allocate [Zero Page] (h : Accounts p s hand) (offer : Option Nat) :
    Accounts p (s.mmAllocatePhysicalPage offer).1 ((s.mmAllocatePhysicalPage offer).2.toList ++ hand) ∧
      SameShape s (s.mmAllocatePhysicalPage offer).1 := by
  rw [mmAllocatePhysicalPage]
  split
  · exact ⟨h, .refl s⟩
  · next f hof =>
      have hz : s.refCount f = 0 := by simpa using (filter_eq_some_iff.1 hof).2
      have ha := h.addReference f
      rw [mmPageAddReference, hz] at ha
      exact ⟨ha.setContent f 0, rfl, fun _ => rfl⟩

/-! ## Holders that change -/

/-- **An entry of an object exchanges its frame** with the hand. -/
theorem Accounts.exchangeOwned (s' : Machine T Page) (x : Nat × Nat) (y : Option Nat)
    (h : Accounts p s hand) (hpr : ((s.owned x).toList ++ hand).Perm (y.toList ++ hand'))
    (hcount : s'.refCount = s.refCount) (hmr : s'.memory = s.memory)
    (hw : s'.owned = update s.owned x y)
    (hy : ∀ o, ((s'.object o).sla.map Prod.fst).Nodup) : Accounts p s' hand' := by
  have hmp : s'.mapped p = s.mapped p := by
    funext x
    rw [mapped, hmr, mapped]
  refine ⟨fun f => ?_, hmp ▸ h.fewMapped, hw ▸ h.fewOwned.update x y, ?_, hy⟩
  · have hf := h.count f
    have hx := tally_update h.fewOwned x y f
    have hp := hpr.count_eq f
    rw [count_append, count_append] at hp
    rw [hcount, hmp, hw]
    omega
  · rw [hmr]
    exact h.fromPmm

theorem owned_congr (hb : s'.object = s.object) : s'.owned = s.owned := by
  funext x
  simp only [owned, mmLookUpEntrySla, hb]

/-- **A page exchanges its frame** with the hand. -/
theorem Accounts.exchangeMapped (s' : Machine T Page) (x : Nat × Nat) (e : Pte) (h : Accounts p s hand)
    (hpr : ((s.mapped p x).toList ++ hand).Perm (e.frame.toList ++ hand'))
    (hcount : s'.refCount = s.refCount) (hb : s'.object = s.object) (he : e.FromPmm)
    (hvw : ∀ proc page, (s'.memory proc).tables.view p page =
      if (proc, page) = x then e else (s.memory proc).tables.view p page) :
    Accounts p s' hand' := by
  have hw := owned_congr hb
  have hmp : s'.mapped p = update (s.mapped p) x e.frame := by
    funext y
    rw [mapped, hvw, update_apply, mapped]
    split <;> rfl
  refine ⟨fun f => ?_, hmp ▸ h.fewMapped.update x _, hw ▸ h.fewOwned, fun proc page => ?_, hb ▸ h.keys⟩
  · have hf := h.count f
    have hx := tally_update h.fewMapped x e.frame f
    have hp := hpr.count_eq f
    rw [count_append, count_append] at hp
    rw [hcount, hw, hmp]
    omega
  · rw [hvw]
    split
    · exact he
    · exact h.fromPmm proc page

/-- Pages that hold the same frames have the same accounts. -/
theorem Accounts.congr (h : Accounts p s hand) (hcount : s'.refCount = s.refCount)
    (hb : s'.object = s.object) (hmp : s'.mapped p = s.mapped p)
    (hp : ∀ proc page, ((s'.memory proc).tables.view p page).FromPmm) : Accounts p s' hand := by
  have hw := owned_congr hb
  exact ⟨fun f => by rw [hcount, hmp, hw, h.count f], hmp ▸ h.fewMapped,
    hw ▸ h.fewOwned, hp, hb ▸ h.keys⟩

/-! ## Sparse arrays -/

variable {l : List (Nat × Nat)}

theorem lookup_cons_of_ne {j : Nat} (hj : j ≠ i) : ((i, f) :: l).lookup j = l.lookup j := by
  rw [lookup_cons, beq_false_of_ne hj]

theorem lookup_filter_of_ne {j : Nat} (hj : j ≠ i) :
    (l.filter fun x => x.1 != i).lookup j = l.lookup j := by
  induction l with
  | nil => rfl
  | cons x l ih =>
    obtain ⟨k, f⟩ := x
    by_cases hk : k = i
    · subst hk
      rw [filter_cons_of_neg (by simp), ih, lookup_cons_of_ne hj]
    · rw [filter_cons_of_pos (by simpa using hk), lookup_cons, lookup_cons, ih]

theorem nodup_filter (h : (l.map Prod.fst).Nodup) : ((l.filter fun x => x.1 != i).map Prod.fst).Nodup :=
  h.sublist ((filter_sublist).map _)

@[simp] theorem setSla_object_self (s : Machine T Page) (o : Nat) (l : List (Nat × Nat)) :
    (s.setSla o l).object o = { s.object o with sla := l } := by
  simp [setSla]

theorem setSla_object_of_ne {o' : Nat} (s : Machine T Page) (l : List (Nat × Nat)) (h : o' ≠ o) :
    (s.setSla o l).object o' = s.object o' := by
  simp [setSla, h]

@[simp] theorem setSla_kind (s : Machine T Page) (o o' : Nat) (l : List (Nat × Nat)) :
    ((s.setSla o l).object o').kind = (s.object o').kind := by
  by_cases h : o' = o
  · subst h
    simp
  · rw [setSla_object_of_ne s l h]

theorem setSla_keys (h : ∀ o, ((s.object o).sla.map Prod.fst).Nodup)
    (hl : (l.map Prod.fst).Nodup) (o' : Nat) :
    (((s.setSla o l).object o').sla.map Prod.fst).Nodup := by
  by_cases ho : o' = o
  · subst ho
    simpa using hl
  · rw [setSla_object_of_ne s l ho]
    exact h o'

theorem sameShape_setSla (s : Machine T Page) (o : Nat) (l : List (Nat × Nat)) :
    SameShape s (s.setSla o l) :=
  ⟨rfl, fun _ => setSla_kind s o _ l⟩

theorem owned_of_ne_file (h : (s.object o).kind ≠ .fileObject) :
    s.owned (o, i) = s.mmLookUpEntrySla o i := by
  rw [owned]
  split
  · next hk => exact absurd hk h
  · rfl

theorem owned_setSla {y : Option Nat} (hk : (s.object o).kind ≠ .fileObject) (hi : l.lookup i = y)
    (hl : ∀ j, j ≠ i → l.lookup j = (s.object o).sla.lookup j) :
    (s.setSla o l).owned = update s.owned (o, i) y := by
  funext x
  obtain ⟨o', j⟩ := x
  by_cases ho : o' = o
  · subst ho
    rw [owned_of_ne_file (by rwa [setSla_kind]), mmLookUpEntrySla, setSla_object_self]
    by_cases hj : j = i
    · subst hj
      rw [update_self, hi]
    · rw [update_of_ne (by simpa using hj), owned_of_ne_file hk, mmLookUpEntrySla]
      exact hl j hj
  · rw [update_of_ne (by simp [ho])]
    simp only [owned, mmLookUpEntrySla, setSla_object_of_ne s l ho]

/-- The entries of a page cache hold nothing. -/
theorem Accounts.setSla_file (h : Accounts p s hand)
    (hk : (s.object o).kind = .fileObject) (hl : (l.map Prod.fst).Nodup) :
    Accounts p (s.setSla o l) hand := by
  have hw : (s.setSla o l).owned = s.owned := by
    funext x
    obtain ⟨o', j⟩ := x
    by_cases ho : o' = o
    · subst ho
      simp only [owned, setSla_kind, hk]
    · simp only [owned, mmLookUpEntrySla, setSla_object_of_ne s l ho]
  exact ⟨fun f => hw ▸ h.count f, h.fewMapped, hw ▸ h.fewOwned, h.fromPmm, setSla_keys h.keys hl⟩

/-- A new entry of a section or an overlay takes the reference in hand. -/
theorem Accounts.assign (h : Accounts p s (f :: hand)) (hk : (s.object o).kind ≠ .fileObject)
    (hnn : s.mmLookUpEntrySla o i = none) : Accounts p (s.mmAssignEntrySla o i f) hand := by
  have hx : s.owned (o, i) = none := (owned_of_ne_file hk).trans hnn
  exact Accounts.exchangeOwned (s.mmAssignEntrySla o i f) (o, i) (some f) h (by rw [hx]; rfl)
    rfl rfl (owned_setSla hk (by simp) fun j hj => by
      rw [lookup_cons_of_ne hj, lookup_filter_of_ne hj])
    (setSla_keys h.keys (by
      rw [map_cons, nodup_cons]
      exact ⟨by simp, nodup_filter (h.keys o)⟩))

/-- **Deleting a section or an overlay** frees what its entries own. -/
theorem Accounts.deinitialize (h : Accounts p s hand) (hk : (s.object o).kind ≠ .fileObject) :
    Accounts p (s.mmDeinitializeSla o) hand := by
  refine Accounts.freeAll ?_
  -- drop one entry after the other
  have hdrop : ∀ l : List (Nat × Nat), (l.map Prod.fst).Nodup → ∀ hand,
      Accounts p (s.setSla o l) hand → Accounts p (s.setSla o []) (l.map Prod.snd ++ hand) := by
    intro l
    induction l with
    | nil => exact fun _ hand h => h
    | cons x l ih =>
      intro hnd hand h
      obtain ⟨i, f⟩ := x
      obtain ⟨hi, hl⟩ := nodup_cons.1 hnd
      have hlk : l.lookup i = none := by
        rw [lookup_eq_none_iff]
        intro x hx
        rw [bne_iff_ne]
        rintro rfl
        exact hi (List.mem_map.2 ⟨x, hx, rfl⟩)
      have hst : (s.setSla o ((i, f) :: l)).setSla o l = s.setSla o l := by
        simp [setSla]
      have hw : (s.setSla o ((i, f) :: l)).owned (o, i) = some f := by
        rw [owned_of_ne_file (by rwa [setSla_kind]), mmLookUpEntrySla, setSla_object_self]
        simp
      have hnext : Accounts p ((s.setSla o ((i, f) :: l)).setSla o l) (f :: hand) :=
        Accounts.exchangeOwned _ (o, i) none h (by rw [hw]; rfl) rfl rfl
          (owned_setSla (by rwa [setSla_kind]) hlk fun j hj => by
            rw [setSla_object_self, lookup_cons_of_ne hj])
          (setSla_keys h.keys hl)
      rw [hst] at hnext
      exact (ih hl _ hnext).perm perm_middle
  have hsm : s.setSla o (s.object o).sla = s := by
    simp [setSla]
  exact hdrop _ (h.keys o) hand (hsm.symm ▸ h)

/-! ## Pages of objects -/

section

variable [Zero Page] {e : Supply Page}

/-- A request for a page puts it in hand, and moves nothing else. -/
structure Serves (p : Port) (hand : List Nat) (s : Machine T Page)
    (r : Machine T Page × PageAnswer) : Prop where
  accounts : Accounts p r.1 (r.2.frames ++ hand)
  shape : SameShape s r.1

section

omit [Zero Page]

theorem Serves.refuse {a : PageAnswer} (h : Accounts p s hand) (ha : a.frames = []) :
    Serves p hand s (s, a) :=
  ⟨by rwa [ha], .refl s⟩

theorem Serves.refer (h : Accounts p s hand) (f : Nat) :
    Serves p hand s (s.mmPageAddReference f, .page f) :=
  ⟨h.addReference f, rfl, fun _ => rfl⟩

theorem Serves.after {r : Machine T Page × PageAnswer} (h : Serves p hand s' r)
    (hs : SameShape s s') : Serves p hand s r :=
  ⟨h.accounts, hs.trans h.shape⟩

theorem Serves.accounts_of_no_page {a : PageAnswer} (h : Serves p hand s (s', a))
    (ha : ∀ f, a ≠ .page f) : Accounts p s' hand := by
  cases a with
  | page f => exact absurd rfl (ha f)
  | moreProcessingRequired | hardwareIoError | insufficientMemory | failed => exact h.accounts

end

theorem object_allocate (s : Machine T Page) (offer : Option Nat) :
    (s.mmAllocatePhysicalPage offer).1.object = s.object := by
  rw [mmAllocatePhysicalPage]
  split <;> rfl

theorem serves_section (h : Accounts p s hand) (hk : (s.object o).kind ≠ .fileObject) :
    Serves p hand s (s.mmpGetPageSection e o i) := by
  rw [mmpGetPageSection]
  split
  · exact .refer h _
  · next hnn =>
      have ha := h.allocate e.basePage
      have hb := object_allocate s e.basePage
      split
      · next s₁ hs₁ =>
          rw [hs₁] at ha
          exact ⟨ha.1, ha.2⟩
      · next s₁ f hs₁ =>
          rw [hs₁] at ha hb
          obtain ⟨hc, hh⟩ := ha
          split
          · have hw : Accounts p (s₁.mmAssignEntrySla o i f) hand :=
              hc.assign (by rwa [hh.kind o]) (by rwa [mmLookUpEntrySla, hb])
            exact (Serves.refer hw f).after (hh.trans (sameShape_setSla s₁ o _))
          · exact ⟨hc.free, hh.trans (sameShape_free s₁ f)⟩

omit [Zero Page] in
theorem serves_file (h : Accounts p s hand) : Serves p hand s (s.iopGetPageFromFile e o i) := by
  rw [iopGetPageFromFile]
  split
  · exact .refer h _
  · exact .refuse h rfl
  · exact .refuse h rfl
  all_goals
    split
    · exact .refer h _
    · exact .refuse h rfl

theorem serves_readFile (h : Accounts p s hand) (hk : (s.object o).kind = .fileObject) :
    Serves p hand s (s.iopReadPageFromFile e o i) := by
  rw [iopReadPageFromFile]
  split
  · have hcl : Accounts p (s.clearEntry o i) hand := h.setSla_file hk (nodup_filter (h.keys o))
    have hh : SameShape s (s.clearEntry o i) := sameShape_setSla s o _
    have ha := hcl.allocate e.basePage
    split
    · next s₁ hs₁ =>
        rw [hs₁] at ha
        exact ⟨ha.1, hh.trans ha.2⟩
    · next s₁ f hs₁ =>
        rw [hs₁] at ha
        obtain ⟨hac, hh₁⟩ := ha
        split
        · next c hc =>
            have hread := hac.setContent f c
            have hh₂ := (hh.trans hh₁).trans (sameShape_setContent s₁ f c)
            refine ⟨hread.setSla_file ((hh₂.kind o).trans hk) ?_, hh₂.trans (sameShape_setSla _ o _)⟩
            rw [map_cons, nodup_cons]
            exact ⟨by simp, nodup_filter (hread.keys o)⟩
        · exact ⟨hac.free, (hh.trans hh₁).trans (sameShape_free s₁ f)⟩
  · exact .refuse h rfl

/-- **`MmGetPageMappable`** returns a page with a reference for the caller. -/
theorem serves_getPage (h : Accounts p s hand) : Serves p hand s (s.mmGetPageMappable e o i) := by
  rw [mmGetPageMappable]
  -- down the chain of parents
  have hfl : ∀ fuel o (ho : o < fuel) i, Serves p hand s (s.getPageFuel e fuel o ho i) := by
    intro fuel
    induction fuel with
    | zero => exact fun o ho => absurd ho (Nat.not_lt_zero o)
    | succ fuel ih =>
      intro o ho i
      rw [getPageFuel]
      split
      · next hk => exact serves_section h (by rw [hk]; nofun)
      · exact serves_file h
      · split
        · exact .refer h _
        · exact ih _ _ _
  exact hfl _ _ _ _

/-- **`MmReadPageMappable`** does the same. -/
theorem serves_readPage (h : Accounts p s hand) : Serves p hand s (s.mmReadPageMappable e o i) := by
  rw [mmReadPageMappable]
  have hfl : ∀ fuel o (ho : o < fuel) i, Serves p hand s (s.readPageFuel e fuel o ho i) := by
    intro fuel
    induction fuel with
    | zero => exact fun o ho => absurd ho (Nat.not_lt_zero o)
    | succ fuel ih =>
      intro o ho i
      rw [readPageFuel]
      split
      · exact .refuse h rfl
      · next hk => exact serves_readFile h hk
      · exact ih _ _ _
  exact hfl _ _ _ _

/-- A second request after one that came with nothing. -/
theorem Serves.retry {r : Machine T Page × PageAnswer} {a : PageAnswer} (h : Serves p hand s r)
    (ha : a.frames = []) :
    Serves p hand s (if r.2 = a then r.1.mmReadPageMappable e o i else r) := by
  split
  · next hr =>
      have hc := h.accounts
      rw [hr, ha] at hc
      exact (serves_readPage hc).after h.shape
  · exact h

theorem serves_fetchPage (h : Accounts p s hand) : Serves p hand s (s.fetchPage e o i) :=
  (serves_getPage h).retry rfl

theorem serves_parentPage (h : Accounts p s hand) : Serves p hand s (s.parentPage e o i) :=
  (serves_getPage h).retry rfl

/-- The copy belongs to the overlay, and the page it was made from goes back. -/
theorem Accounts.copyPage (h : Accounts p s (f :: hand)) (hk : (s.object o).kind ≠ .fileObject) :
    Accounts p (s.copyPage e o i f).1 hand ∧ SameShape s (s.copyPage e o i f).1 := by
  rw [Machine.copyPage]
  split
  · exact ⟨h.free, sameShape_free s f⟩
  · next hnn =>
      have ha := h.allocate e.newPage
      have hb := object_allocate s e.newPage
      split
      · next s₁ hs₁ =>
          rw [hs₁] at ha
          exact ⟨ha.1.free, ha.2.trans (sameShape_free s₁ f)⟩
      · next s₁ new hs₁ =>
          rw [hs₁] at ha hb
          obtain ⟨hc, hh⟩ := ha
          have hfr := ((hc.setContent new (s₁.content f)).perm (List.Perm.swap _ _ _)).free
          have hh' := (hh.trans (sameShape_setContent s₁ new (s₁.content f))).trans (sameShape_free _ f)
          split
          · rw [mmLookUpEntrySla, ← hb] at hnn
            exact ⟨hfr.assign (by rwa [hh'.kind o]) hnn, hh'.trans (sameShape_setSla _ o _)⟩
          · exact ⟨hfr.free, hh'.trans (sameShape_free _ new)⟩

/-- **`MmPrepareWriteMappable`** leaves nothing in hand. -/
theorem Accounts.prepareWrite {r : Machine T Page × Bool} (h : Accounts p s hand)
    (hr : s.mmPrepareWriteMappable e o i = some r) : Accounts p r.1 hand ∧ SameShape s r.1 := by
  have hrf : ∀ f, Accounts p ((s.mmPageAddReference f).mmFreePhysicalPage f) hand ∧
      SameShape s ((s.mmPageAddReference f).mmFreePhysicalPage f) :=
    fun f => ⟨(h.addReference f).free, rfl, fun _ => rfl⟩
  rw [mmPrepareWriteMappable] at hr
  split at hr
  · cases hr
    exact ⟨h, .refl s⟩
  · rw [iopPrepareWriteFile] at hr
    split at hr
    · cases hr
      exact hrf _
    · cases hr
      exact ⟨h, .refl s⟩
    · cases hr
      exact ⟨h, .refl s⟩
    all_goals
      obtain ⟨f, -, rfl⟩ := map_eq_some_iff.1 hr
      exact hrf f
  · next par so hk =>
      cases hr
      rw [mmpPrepareWriteOverlay]
      split
      · exact ⟨h, .refl s⟩
      · have hsr := serves_parentPage (e := e) (o := par) (i := addW i so) h
        split
        · next s₁ f hs₁ =>
            rw [hs₁] at hsr
            obtain ⟨ha, hh⟩ := hsr.accounts.copyPage (e := e) (o := o)
              (i := addW i so) (by rw [hsr.shape.kind o, hk]; nofun)
            exact ⟨ha, hsr.shape.trans hh⟩
        · next s₁ a hne hs₁ =>
            rw [hs₁] at hsr
            exact ⟨hsr.accounts_of_no_page hne, hsr.shape⟩

end

end Machine

end Boron.Mm
