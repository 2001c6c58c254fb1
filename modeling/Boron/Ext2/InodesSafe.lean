import Boron.Ext2.InodeLife

/-! # The inodes in memory are safe

Nothing sets `AddedToInodeTree`, so no call ever takes an FCB out of the tree. The steps that leave
the FCBs of the tree their last reference keep the life of every FCB (`Inv.step`), which says
everything that is promised of the inodes (`inodes_safe_of_calm`). The last reference of an FCB of the tree
leaves a freed FCB there (`inodes_not_safe`). -/

namespace Boron.Ext2

open Function List Option

namespace InodeCache

variable {T : Type} [DecidableEq T] {s s' : InodeCache T} {t : T}

/-! ## What is kept -/

structure Inv (s : InodeCache T) : Prop where
  mutex : s.MutexOk
  added : ∀ f, s.addedToInodeTree f = false
  hooks : ∀ t, unhooks (s.thread t) = false
  ordered : Ordered Fcb.inodeNumber s.inodeTree
  fresh : ∀ f ∈ s.fcbs, f.fcb < s.fcbs.length
  life : ∀ g, Life s g

theorem inv_start (ic : Nat) : (start ic : InodeCache T).Inv where
  mutex := fun _ => rfl
  added := fun _ => rfl
  hooks := fun _ => rfl
  ordered := List.Pairwise.nil
  fresh := fun f hf => by cases hf
  life := fun g => .absent (by simp [start]) (by simp [start]) rfl rfl fun _ => rfl

namespace Inv

variable {f : Fcb}

section

variable (h : s.Inv)
include h

theorem loaded (hrole : role (s.thread t) f = some .loads) :
    f ∈ s.fcbs ∧ f ∉ s.inodeTree ∧ s.given f = 0 ∧ s.freed f = 0 ∧ s.referenceCount f = 1 ∧
      ∀ u ≠ t, role (s.thread u) f = none := by
  cases h.life f with
  | absent _ _ _ _ hnn => simp [hnn] at hrole
  | loaded u hfcb htree hgiven hfreed hcount _ hother =>
    obtain rfl : t = u := by
      by_contra hne
      simp [hother t hne] at hrole
    exact ⟨hfcb, htree, hgiven, hfreed, hcount, hother⟩
  | cached _ _ _ _ hrl => exact absurd hrole (hrl t).1
  | dropped u _ _ _ _ hu hother =>
    by_cases hne : t = u
    · rw [hne, hu] at hrole
      cases hrole
    · simp [hother t hne] at hrole
  | freed _ _ _ _ hnn => simp [hnn] at hrole

theorem dropped (hrole : role (s.thread t) f = some .frees) :
    f ∈ s.fcbs ∧ f ∉ s.inodeTree ∧ s.given f = 0 ∧ s.freed f = 0 ∧
      ∀ u ≠ t, role (s.thread u) f = none := by
  cases h.life f with
  | absent _ _ _ _ hnn => simp [hnn] at hrole
  | loaded u _ _ _ _ _ hu hother =>
    by_cases hne : t = u
    · rw [hne, hu] at hrole
      cases hrole
    · simp [hother t hne] at hrole
  | cached _ _ _ _ hrl => exact absurd hrole (hrl t).2
  | dropped u hfcb htree hgiven hfreed _ hother =>
    obtain rfl : t = u := by
      by_contra hne
      simp [hother t hne] at hrole
    exact ⟨hfcb, htree, hgiven, hfreed, hother⟩
  | freed _ _ _ _ hnn => simp [hnn] at hrole

/-- An FCB of the tree, one that a call uses, or one that callers have references of. -/
theorem cached (hf : f ∈ s.inodeTree ∨ s.given f ≠ 0 ∨
      ∃ t, role (s.thread t) f = some .references ∨ role (s.thread t) f = some .returns) :
    f ∈ s.fcbs ∧ f ∈ s.inodeTree ∧ s.freed f = 0 ∧ s.referenceCount f ≠ 0 ∧
      (∀ u, role (s.thread u) f ≠ some .loads ∧ role (s.thread u) f ≠ some .frees) ∧
      ((∀ u, role (s.thread u) f ≠ some .returns) → s.referenceCount f = s.given f) ∧
      ∀ u, role (s.thread u) f = some .returns → s.referenceCount f = s.given f + 1 := by
  cases h.life f with
  | absent _ htree hgiven _ hnn => simp [htree, hgiven, hnn] at hf
  | loaded u _ htree hgiven _ _ hu hother =>
    obtain hf | hf | ⟨t, ht⟩ := hf
    · exact absurd hf htree
    · exact absurd hgiven hf
    · by_cases hne : t = u
      · simp [hne, hu] at ht
      · simp [hother t hne] at ht
  | cached hfcb htree hfreed hpos hrl hcount hreturn =>
    exact ⟨hfcb, htree, hfreed, hpos, hrl, hcount, hreturn⟩
  | dropped u _ htree hgiven _ hu hother =>
    obtain hf | hf | ⟨t, ht⟩ := hf
    · exact absurd hf htree
    · exact absurd hgiven hf
    · by_cases hne : t = u
      · simp [hne, hu] at ht
      · simp [hother t hne] at ht
  | freed _ htree hgiven _ hnn => simp [htree, hgiven, hnn] at hf

theorem life_find {n : Nat} (hc : s.thread t = .lookingUp n)
    (hf : f ∈ s.inodeTree) (g : Fcb) : Life (s.goto t (.referencing f)) g := by
  by_cases hg : g = f
  · subst hg
    obtain ⟨hfcb, htree, hfreed, hpos, hrl, hcount, hreturn⟩ := h.cached (.inl hf)
    have hnn : role (s.thread t) g ≠ some .returns := by
      rw [hc]
      exact nofun
    refine .cached_update rfl hfcb htree hfreed hpos (by simp [role]) (fun u _ => hrl u)
      (fun _ ha => hcount fun u => ?_) (by simp [role]) fun u _ => hreturn u
    by_cases hu : u = t
    · exact hu ▸ hnn
    · exact ha u hu
  · have hrole : role (.referencing f) g = role (s.thread t) g := by
      rw [hc]
      exact if_neg hg
    exact (h.life g).goto hrole s.inodeTreeMutex

theorem not_returns (hholds : holds (s.thread t) ≠ 0) {u : T} (hu : u ≠ t) (f : Fcb) :
    role (s.thread u) f ≠ some .returns := by
  intro hrole
  refine hu (h.mutex.eq hholds ?_)
  rw [returning_of_role hrole]
  exact Nat.one_ne_zero

/-- The counter is raised for a call that has found its FCB. -/
theorem life_raise (hc : s.thread t = .referencing f) (g : Fcb) :
    Life ((s.ext2ReferenceInode f).goto t (.returning f)) g := by
  by_cases hg : g = f
  · subst hg
    have hrf : role (s.thread t) g = some .references := by
      rw [hc]
      exact if_pos rfl
    obtain ⟨hfcb, htree, hfreed, hpos, hrl, hcount, -⟩ := h.cached (.inr (.inr ⟨t, .inl hrf⟩))
    have hother (u : T) (hu : u ≠ t) : role (s.thread u) g ≠ some .returns :=
      h.not_returns (hc ▸ Nat.one_ne_zero) hu g
    have heq : s.referenceCount g = s.given g := by
      refine hcount fun u => ?_
      by_cases hu : u = t
      · rw [hu, hrf]
        exact nofun
      · exact hother u hu
    have hw : ((s.ext2ReferenceInode g).goto t (.returning g)).referenceCount g = s.given g + 1 := by
      rw [← heq]
      exact update_self _ _ _
    refine .cached_update (s := s) rfl hfcb htree hfreed (by omega) (by simp [role])
      (fun u _ => hrl u) (fun hne => absurd (if_pos rfl) hne) (fun _ => hw)
      fun u hu hrt => absurd hrt (hother u hu)
  · refine (h.life g).apart (apart_of_update (t := t) hg ?_ rfl Iff.rfl Iff.rfl
      (fun g hg => update_of_ne hg _ _) (fun _ _ => rfl) fun _ _ => rfl)
    rw [hc]
    exact (if_neg hg).trans (if_neg hg).symm

theorem life_return (hc : s.thread t = .returning f) (m : Mutex T)
    (g : Fcb) : Life { (s.give f).goto t .idle with inodeTreeMutex := m } g := by
  by_cases hg : g = f
  · subst hg
    have hsl : role (s.thread t) g = some .returns := by
      rw [hc]
      exact if_pos rfl
    obtain ⟨hfcb, htree, hfreed, hpos, hrl, -, hreturn⟩ := h.cached (.inr (.inr ⟨t, .inr hsl⟩))
    have hgiven : (s.give g).given g = s.given g + 1 := update_self g _ s.given
    have hw : s.referenceCount g = (s.give g).given g := by
      rw [hreturn t hsl, hgiven]
    exact .cached_update (s := s) rfl hfcb htree hfreed hpos ⟨nofun, nofun⟩ (fun u _ => hrl u)
      (fun _ _ => hw) nofun fun u hu hrt =>
        absurd hrt (h.not_returns (hc ▸ Nat.one_ne_zero) hu g)
  · refine (h.life g).apart (apart_of_update (t := t) hg ?_ rfl Iff.rfl Iff.rfl
      (fun _ _ => rfl) (fun g hg => update_of_ne hg _ _) fun _ _ => rfl)
    rw [hc]
    exact (if_neg hg).symm

theorem life_create {n : Nat} (hc : s.thread t = .creating n) (g : Fcb) :
    Life (s.ext2CreateFcb t n) g := by
  by_cases hg : g = s.newFcb n
  · have hfr : g ∉ s.fcbs := by
      intro hme
      have := h.fresh g hme
      rw [hg] at this
      exact Nat.lt_irrefl _ this
    cases h.life g with
    | absent _ htree hgiven hfreed hrole =>
      refine .loaded t (hg ▸ mem_cons_self) htree hgiven hfreed ?_ ?_ fun u hu => ?_
      · rw [hg]
        exact update_self _ _ s.referenceCount
      · refine (role_update s.thread (.reading (s.newFcb n)) g t).trans ?_
        rw [if_pos rfl]
        exact if_pos hg
      · refine (role_update s.thread (.reading (s.newFcb n)) g u).trans ?_
        rw [if_neg hu]
        exact hrole u
    | loaded _ hme => exact absurd hme hfr
    | cached hme => exact absurd hme hfr
    | dropped _ hme => exact absurd hme hfr
    | freed hme => exact absurd hme hfr
  · refine (h.life g).apart (apart_of_update (t := t) hg ?_ rfl ?_ Iff.rfl
      (fun g hg => update_of_ne hg _ _) (fun _ _ => rfl) fun _ _ => rfl)
    · rw [hc]
      exact if_neg hg
    · exact mem_cons.trans (or_iff_right hg)

theorem life_drop (hrole : role (s.thread t) f = some .loads)
    (hother : ∀ g ≠ f, role (s.thread t) g = none) {retry : Option Nat}
    (hh : s'.thread = update s.thread t (.freeing f retry))
    (hc : s'.fcbs = s.fcbs) (htree : s'.inodeTree = s.inodeTree) (hgiven : s'.given = s.given)
    (hfreed : s'.freed = s.freed) (hcount : ∀ g ≠ f, s'.referenceCount g = s.referenceCount g)
    (g : Fcb) : Life s' g := by
  by_cases hg : g = f
  · subst hg
    obtain ⟨hfcb, hnt, hz, hlv, -, hnn⟩ := h.loaded hrole
    refine .dropped t (hc ▸ hfcb) (htree ▸ hnt) (hgiven ▸ hz) (hfreed ▸ hlv) ?_ fun u hu => ?_
    · rw [hh, role_update, if_pos rfl]
      exact if_pos rfl
    · rw [hh, role_update, if_neg hu]
      exact hnn u hu
  · refine (h.life g).apart (apart_of_update (t := t) hg ?_ hh (by rw [hc]) (by rw [htree])
      hcount (fun _ _ => by rw [hgiven]) fun _ _ => by rw [hfreed])
    rw [hother g hg]
    exact if_neg hg

theorem life_insert {cur : Cursor Fcb} (hc : s.thread t = .inserting f)
    (hcursor : insertItem Fcb.inodeNumber s.inodeTree f = some cur) (g : Fcb) :
    Life { s.goto t (.returning f) with inodeTree := cur.toTree } g := by
  have hme (g : Fcb) : g ∈ cur.toTree ↔ g = f ∨ g ∈ s.inodeTree := by
    obtain ⟨he, hrm⟩ := toTree_of_insertItem hcursor
    rw [cur.toTree_perm.mem_iff, mem_cons, he, hrm]
  by_cases hg : g = f
  · subst hg
    have hrole : role (s.thread t) g = some .loads := by
      rw [hc]
      exact if_pos rfl
    obtain ⟨hfcb, -, hgiven, hfreed, hcount, hnn⟩ := h.loaded hrole
    have hw : s.referenceCount g = s.given g + 1 := by rw [hcount, hgiven]
    refine .cached_update (s := s) rfl hfcb ((hme g).2 (.inl rfl)) hfreed (by simp [goto, hcount])
      (by simp [role]) (fun u hu => by simp [hnn u hu]) (fun hne => absurd (if_pos rfl) hne)
      (fun _ => hw) fun u hu hrt => ?_
    rw [hnn u hu] at hrt
    cases hrt
  · refine (h.life g).apart (apart_of_update (t := t) hg ?_ rfl Iff.rfl
      ((hme g).trans (or_iff_right hg)) (fun _ _ => rfl) (fun _ _ => rfl) fun _ _ => rfl)
    rw [hc]
    exact (if_neg hg).trans (if_neg hg).symm

theorem life_free {retry : Option Nat} (hc : s.thread t = .releasing f retry) (g : Fcb) :
    Life ((s.ioFreeFcb f).goto t (resume retry)) g := by
  have hrs (g : Fcb) : role (resume retry) g = none := by
    cases retry <;> rfl
  by_cases hg : g = f
  · subst hg
    have hrole : role (s.thread t) g = some .frees := by
      rw [hc]
      exact if_pos rfl
    obtain ⟨hfcb, htree, hgiven, hfreed, hnn⟩ := h.dropped hrole
    have hw : (s.ioFreeFcb g).freed g = s.freed g + 1 := update_self g _ s.freed
    refine .freed hfcb htree hgiven (hw.trans (by rw [hfreed])) fun u => ?_
    refine (role_update s.thread (resume retry) g u).trans ?_
    split
    · exact hrs g
    · next hu => exact hnn u hu
  · refine (h.life g).apart (apart_of_update (t := t) hg ?_ rfl Iff.rfl Iff.rfl (fun _ _ => rfl)
      (fun _ _ => rfl) fun g hg => update_of_ne hg _ _)
    rw [hc, hrs g]
    exact (if_neg hg).symm

theorem life_reference (hf : s.given f ≠ 0) (g : Fcb) :
    Life ((s.ext2ReferenceInode f).give f) g := by
  by_cases hg : g = f
  · subst hg
    obtain ⟨hfcb, htree, hfreed, -, hrl, hcount, hreturn⟩ := h.cached (.inr (.inl hf))
    have hc : (s.ext2ReferenceInode g).referenceCount g = s.referenceCount g + 1 :=
      update_self g _ s.referenceCount
    have hgiven : ((s.ext2ReferenceInode g).give g).given g = s.given g + 1 :=
      update_self g _ s.given
    refine .cached hfcb htree hfreed ?_ hrl (fun ha => ?_) fun u hu => ?_
    · show (s.ext2ReferenceInode g).referenceCount g ≠ 0
      omega
    · show (s.ext2ReferenceInode g).referenceCount g = _
      rw [hc, hgiven, hcount ha]
    · show (s.ext2ReferenceInode g).referenceCount g = _
      rw [hc, hgiven, hreturn u hu]
  · exact (h.life g).apart ⟨Iff.rfl, Iff.rfl, update_of_ne hg _ _,
      update_of_ne hg _ _, rfl, fun _ => rfl⟩

theorem life_dereference (hf : s.given f ≠ 0) (hil : s.thread t = .idle)
    (hls : s.referenceCount f ≠ 1) (g : Fcb) :
    Life ((s.take f).ext2DereferenceInode t f) g := by
  obtain ⟨hfcb, htree, hfreed, hpos, hrl, hcount, hreturn⟩ := h.cached (.inr (.inl hf))
  have hh : ((s.take f).ext2DereferenceInode t f).thread = update s.thread t .idle := by
    have hvl : (s.take f).referenceCount f - 1 ≠ 0 := by
      show s.referenceCount f - 1 ≠ 0
      omega
    simp only [ext2DereferenceInode, if_neg hvl]
    rfl
  have hc : ((s.take f).ext2DereferenceInode t f).referenceCount f = s.referenceCount f - 1 :=
    update_self f _ s.referenceCount
  have hgiven : ((s.take f).ext2DereferenceInode t f).given f = s.given f - 1 :=
    update_self f _ s.given
  by_cases hg : g = f
  · subst hg
    have hsl : role (s.thread t) g = none := hil ▸ rfl
    refine .cached_update hh hfcb htree hfreed ?_ ⟨nofun, nofun⟩ (fun u _ => hrl u)
      (fun _ ha => ?_) nofun fun u _ hu => ?_
    · rw [hc]
      omega
    · rw [hc, hgiven, hcount fun u => ?_]
      by_cases hu : u = t
      · rw [hu, hsl]
        exact nofun
      · exact ha u hu
    · rw [hc, hgiven, hreturn u hu]
      omega
  · refine (h.life g).apart (apart_of_update (t := t) hg (hil ▸ rfl) hh Iff.rfl Iff.rfl
      (fun g hg => update_of_ne hg _ _) (fun g hg => update_of_ne hg _ _)
      fun _ _ => rfl)

/-- The calls that are in the tree's part of `Ext2FreeInode` do not become more. -/
theorem hooks_update {call : Call} (hc : unhooks call = false) (u : T) :
    unhooks (update s.thread t call u) = false := by
  by_cases hu : u = t
  · rw [hu, update_self, hc]
  · rw [update_of_ne hu, h.hooks u]

theorem fail_thread (hc : s.thread t = .reading f) :
    (s.ext2DereferenceInode t f).thread = update s.thread t (.freeing f none) := by
  have hrole : role (s.thread t) f = some .loads := by
    rw [hc]
    exact if_pos rfl
  obtain ⟨-, -, -, -, hcount, -⟩ := h.loaded hrole
  simp only [ext2DereferenceInode, hcount]
  rfl

theorem turn (htr : Turn s t s') : s'.Inv := by
  have hld (f : Fcb) (hc : s.thread t = .reading f) : s.referenceCount f = 1 :=
    (h.loaded (t := t) (hc ▸ if_pos rfl)).2.2.2.2.1
  have hmt := h.mutex.turn htr hld
  cases htr with
  | move call hmv _ =>
    exact ⟨hmt, h.added, h.hooks_update (hmv.unhooks.trans (h.hooks t)), h.ordered, h.fresh,
      fun g => (h.life g).goto (congrFun hmv.role g) s.inodeTreeMutex⟩
  | lock call m hrole hhooks _ _ =>
    have hc : unhooks call = false := by
      by_contra hne
      have := hhooks (Bool.of_not_eq_false hne)
      rw [h.hooks t] at this
      cases this
    exact ⟨hmt, h.added, h.hooks_update hc, h.ordered, h.fresh,
      fun g => (h.life g).goto (congrFun hrole g) m⟩
  | unlock call m hmv _ _ =>
    exact ⟨hmt, h.added, h.hooks_update (hmv.unhooks.trans (h.hooks t)), h.ordered, h.fresh,
      fun g => (h.life g).goto (congrFun hmv.role g) m⟩
  | find n f hc hf =>
    exact ⟨hmt, h.added, h.hooks_update rfl, h.ordered, h.fresh, h.life_find hc hf⟩
  | raise f hc =>
    exact ⟨hmt, h.added, h.hooks_update rfl, h.ordered, h.fresh, h.life_raise hc⟩
  | «return» f m hc _ =>
    exact ⟨hmt, h.added, h.hooks_update rfl, h.ordered, h.fresh, h.life_return hc m⟩
  | create n hc =>
    refine ⟨hmt, fun f => ?_, h.hooks_update rfl, h.ordered, fun f hf => ?_, h.life_create hc⟩
    · by_cases hf : f = s.newFcb n
      · rw [hf]
        exact update_self _ _ s.addedToInodeTree
      · exact (update_of_ne hf _ _).trans (h.added f)
    · refine Nat.lt_succ_of_le ?_
      rcases mem_cons.1 hf with rfl | hold
      · exact Nat.le_refl _
      · exact (h.fresh f hold).le
  | fail f hc =>
    have hrole (g : Fcb) (hg : g ≠ f) : role (s.thread t) g = none := by
      rw [hc]
      exact if_neg hg
    refine ⟨hmt, h.added, ?_, h.ordered, h.fresh, h.life_drop (hc ▸ if_pos rfl) hrole
      (h.fail_thread hc) rfl rfl rfl rfl fun g hg => update_of_ne hg _ _⟩
    rw [h.fail_thread hc]
    exact h.hooks_update rfl
  | insert f cur hc hcursor =>
    refine ⟨hmt, h.added, h.hooks_update rfl, ?_, h.fresh, h.life_insert hc hcursor⟩
    exact h.ordered.insertItem hcursor
  | late f hc =>
    have hrole (g : Fcb) (hg : g ≠ f) : role (s.thread t) g = none := by
      rw [hc]
      exact if_neg hg
    exact ⟨hmt, h.added, h.hooks_update rfl, h.ordered, h.fresh,
      h.life_drop (hc ▸ if_pos rfl) hrole rfl rfl rfl rfl rfl fun _ _ => rfl⟩
  | unhook f _ _ hadded =>
    rw [h.added f] at hadded
    cases hadded
  | remove f retry _ hc _ =>
    have := h.hooks t
    rw [hc] at this
    cases this
  | free f retry hc =>
    exact ⟨hmt, h.added, h.hooks_update (by cases retry <;> rfl), h.ordered, h.fresh, h.life_free hc⟩

theorem step {a : Action T} (hcm : s.Calm a) (hs : s.step a = some s') : s'.Inv := by
  cases a with
  | ext2OpenInode t n =>
    simp only [InodeCache.step] at hs
    split at hs
    · next hil =>
        cases hs
        split
        · exact h
        · exact h.turn (.move (.opening n) (hil ▸ ⟨rfl, rfl⟩) (hil ▸ rfl))
    · cases hs
  | ext2ReferenceInode t f =>
    simp only [InodeCache.step] at hs
    split at hs
    · next hc =>
        cases hs
        exact ⟨h.mutex, h.added, h.hooks, h.ordered, h.fresh, h.life_reference hc.2⟩
    · cases hs
  | ext2DereferenceInode t f =>
    simp only [InodeCache.step] at hs
    split at hs
    · next hc =>
        cases hs
        obtain ⟨-, htree, -, hpos, -⟩ := h.cached (.inr (.inl hc.2))
        have hls : s.referenceCount f ≠ 1 := fun hon => hcm ⟨htree, hon⟩
        have hcl : (if (s.take f).referenceCount f - 1 = 0 then Call.freeing f none else .idle)
            = .idle := if_neg (show ¬ s.referenceCount f - 1 = 0 by omega)
        refine ⟨h.mutex.same (t := t) rfl ?_ rfl, h.added, h.hooks_update ?_, h.ordered, h.fresh,
          h.life_dereference hc.2 hc.1 hls⟩
        · rw [hcl, hc.1]
        · rw [hcl]
          rfl
    · cases hs
  | turn t ans => exact h.turn (turn_cases hs)

end

/-- The invariant says what is promised. -/
theorem safe (h : s.Inv) : s.Safe where
  unique := fun f hf g hg => h.ordered.eq_of_key hf hg
  live := fun f hf => (h.cached (.inl hf)).2.2.1
  returned := fun f hf => by
    obtain ⟨-, -, hfreed, -, -, hcount, hreturn⟩ := h.cached (.inr (.inl hf))
    refine ⟨hfreed, ?_⟩
    by_cases ha : ∀ u, role (s.thread u) f ≠ some .returns
    · exact (hcount ha).ge
    · obtain ⟨u, hu⟩ := not_forall.1 ha
      have := hreturn u (not_not.1 hu)
      omega
  raised := fun t f hc => by
    have hrf : role (s.thread t) f = some .references := by
      rw [hc]
      exact if_pos rfl
    obtain ⟨-, -, hfreed, hpos, -⟩ := h.cached (.inr (.inr ⟨t, .inl hrf⟩))
    exact ⟨hfreed, hpos⟩
  once := fun f => by
    cases h.life f <;> omega
  freed := fun f hfcb hgiven hw hrt => by
    cases h.life f with
    | absent hnt => exact absurd hfcb hnt
    | loaded t _ _ _ _ _ hrole => exact absurd (works_of_role (.inl hrole)) (hw t)
    | cached _ _ _ hpos _ hcount _ =>
      have hz := hcount fun u hu => hrt u (returning_of_role hu)
      exact absurd (hz.trans hgiven) hpos
    | dropped t _ _ _ _ hrole => exact absurd (works_of_role (.inr hrole)) (hw t)
    | freed _ _ _ hfreed => exact hfreed
  unlocked := fun t hil => by
    rw [h.mutex t, hil]
    rfl

end Inv

/-! ## Runs -/

/-- **The inodes in memory are safe** in every run that never drops the last reference of an FCB
that is in the tree. -/
theorem inodes_safe_of_calm {inodeCount : Nat} (h : Reaches step Calm (start inodeCount) s) : s.Safe :=
  (h.invariant (I := Inv) (inv_start inodeCount) fun _ _ _ hi hc hs => hi.step hc hs).safe

/-- One `Ext2OpenInode` of an inode that is not in memory, from its start to its return. -/
def openAlone (inodeNumber : Nat) : List (Action Unit) :=
  .ext2OpenInode () inodeNumber :: List.replicate 8 (.turn () ⟨true, true⟩)

/-- The root inode is opened. -/
theorem inodes_safe_of_calm_root : ∃ s : InodeCache Unit,
    Reaches step Calm (start 16) s ∧ s.inodeTree = [⟨0, 2⟩] ∧ s.given ⟨0, 2⟩ = 1 ∧ s.Safe := by
  have hrn : (runChecked step (fun _ _ => true) (openAlone 2) (start 16)).map
      (fun s => (s.inodeTree, s.given ⟨0, 2⟩)) = some ([⟨0, 2⟩], 1) := by decide
  obtain ⟨s, hs, he⟩ := map_eq_some_iff.1 hrn
  have hc : Reaches step Calm (start 16) s := by
    refine .of_runChecked_mem (fun s a ha _ => ?_) hs
    rcases mem_cons.1 ha with rfl | ha
    · trivial
    · rw [eq_of_mem_replicate ha]
      trivial
  obtain ⟨htree, hgiven⟩ := Prod.mk.inj he
  exact ⟨s, hc, htree, hgiven, inodes_safe_of_calm hc⟩

/-- The only reference of the root inode is dropped: its FCB is freed and stays in the tree. -/
theorem inodes_not_safe : ¬ ∀ (T : Type) [DecidableEq T] (inodeCount : Nat) (s : InodeCache T),
    Reaches step (fun _ _ => True) (start inodeCount) s → s.Safe := by
  intro h
  have hrn : (runChecked step (fun _ _ => true) (openAlone 2 ++
      [Action.ext2DereferenceInode () ⟨0, 2⟩, Action.turn () ⟨true, true⟩, Action.turn () ⟨true, true⟩])
        (start 16)).map (fun s => (s.inodeTree, s.freed ⟨0, 2⟩)) = some ([⟨0, 2⟩], 1) := by decide
  obtain ⟨s, hs, he⟩ := map_eq_some_iff.1 hrn
  have hsf := h Unit 16 s (.of_runChecked (fun _ _ _ => trivial) hs)
  obtain ⟨htree, hfreed⟩ := Prod.mk.inj he
  have hme : ⟨0, 2⟩ ∈ s.inodeTree := by
    rw [htree]
    exact mem_singleton_self _
  exact absurd ((hsf.live _ hme).symm.trans hfreed) (by decide)

end InodeCache

end Boron.Ext2
