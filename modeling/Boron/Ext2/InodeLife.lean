import Boron.Ext2.InodeTree

/-! # The life of an FCB

`turn_cases` says once what a turn can do. The mutex is held as often as the calls say (`MutexOk`),
and an FCB is loaded by one call, put in the tree, used by any number of calls, and freed by one call
(`Life`). -/

namespace Boron.Ext2

open Function Option

namespace InodeCache

variable {T : Type} [DecidableEq T] {s s' : InodeCache T} {t : T}

/-! ## What a call holds -/

/-- How often a call holds the mutex. -/
def holds : Call → Nat
  | .lookingUp _ | .referencing _ | .returning _ | .missing _ | .inserting _ => 1
  | .freeing _ retry | .unhooking _ retry | .releasing _ retry => if retry = none then 0 else 1
  | .removing _ retry => (if retry = none then 0 else 1) + 1
  | .idle | .opening _ | .creating _ | .reading _ | .adding _ => 0

/-- What a call does with an FCB. -/
inductive Role
  | loads
  | frees
  | references
  | returns
  deriving DecidableEq

def role : Call → Fcb → Option Role
  | .reading f, g | .adding f, g | .inserting f, g => if g = f then some .loads else none
  | .freeing f _, g | .unhooking f _, g | .removing f _, g | .releasing f _, g =>
    if g = f then some .frees else none
  | .referencing f, g => if g = f then some .references else none
  | .returning f, g => if g = f then some .returns else none
  | .idle, _ | .opening _, _ | .lookingUp _, _ | .missing _, _ | .creating _, _ => none

theorem returning_of_role {call : Call} {f : Fcb} (h : role call f = some .returns) :
    call = .returning f := by
  cases call <;> simp_all [role]

theorem works_of_role {call : Call} {f : Fcb}
    (h : role call f = some .loads ∨ role call f = some .frees) : works call = some f := by
  cases call <;> simp_all [role, works]

/-- The call is in the part of `Ext2FreeInode` that takes the FCB out of the tree. -/
def unhooks : Call → Bool
  | .unhooking _ _ | .removing _ _ => true
  | _ => false

/-- The call goes on with the same FCB. -/
structure Moves (call call' : Call) : Prop where
  role : role call' = role call
  unhooks : unhooks call' = unhooks call

/-- Everything that a turn of a thread can do. -/
inductive Turn (s : InodeCache T) (t : T) : InodeCache T → Prop
  | move (call : Call) (h : Moves (s.thread t) call) (hholds : holds call = holds (s.thread t)) :
      Turn s t (s.goto t call)
  | lock (call : Call) (m : Mutex T) (h : role call = role (s.thread t))
      (hhooks : unhooks call = true → unhooks (s.thread t) = true)
      (hholds : holds call = holds (s.thread t) + 1)
      (hm : s.inodeTreeMutex.acquire t = some m) :
      Turn s t { s.goto t call with inodeTreeMutex := m }
  | unlock (call : Call) (m : Mutex T) (h : Moves (s.thread t) call)
      (hholds : holds (s.thread t) = holds call + 1)
      (hm : s.inodeTreeMutex.release t = some m) :
      Turn s t { s.goto t call with inodeTreeMutex := m }
  | find (n : Nat) (f : Fcb) (h : s.thread t = .lookingUp n) (hf : f ∈ s.inodeTree) :
      Turn s t (s.goto t (.referencing f))
  | raise (f : Fcb) (h : s.thread t = .referencing f) :
      Turn s t ((s.ext2ReferenceInode f).goto t (.returning f))
  | return (f : Fcb) (m : Mutex T) (h : s.thread t = .returning f)
      (hm : s.inodeTreeMutex.release t = some m) :
      Turn s t { (s.give f).goto t .idle with inodeTreeMutex := m }
  | create (n : Nat) (h : s.thread t = .creating n) : Turn s t (s.ext2CreateFcb t n)
  | fail (f : Fcb) (h : s.thread t = .reading f) : Turn s t (s.ext2DereferenceInode t f)
  | insert (f : Fcb) (cursor : Cursor Fcb) (h : s.thread t = .inserting f)
      (hcursor : insertItem Fcb.inodeNumber s.inodeTree f = some cursor) :
      Turn s t { s.goto t (.returning f) with inodeTree := cursor.toTree }
  | late (f : Fcb) (h : s.thread t = .inserting f) :
      Turn s t (s.goto t (.freeing f (some f.inodeNumber)))
  | unhook (f : Fcb) (retry : Option Nat) (h : s.thread t = .freeing f retry)
      (hadded : s.addedToInodeTree f = true) :
      Turn s t { s.goto t (.unhooking f retry) with
        addedToInodeTree := update s.addedToInodeTree f false }
  | remove (f : Fcb) (retry : Option Nat) (m : Mutex T) (h : s.thread t = .removing f retry)
      (hm : s.inodeTreeMutex.release t = some m) :
      Turn s t { s.goto t (.releasing f retry) with
        inodeTree := s.inodeTree.filter (· ≠ f), inodeTreeMutex := m }
  | free (f : Fcb) (retry : Option Nat) (h : s.thread t = .releasing f retry) :
      Turn s t ((s.ioFreeFcb f).goto t (resume retry))

theorem turn_cases {ans : Answers} (hs : s.turn t ans = some s') : Turn s t s' := by
  cases hc : s.thread t with
  | idle =>
    simp only [turn, hc] at hs
    cases hs
  | opening n =>
    simp only [turn, hc] at hs
    obtain ⟨m, hm, rfl⟩ := map_eq_some_iff.1 hs
    exact .lock _ m (hc ▸ rfl) (hc ▸ id) (hc ▸ rfl) hm
  | lookingUp n =>
    simp only [turn, hc] at hs
    split at hs
    · next f hf =>
        cases hs
        exact .find n f hc (List.mem_of_find?_eq_some hf)
    · cases hs
      exact .move _ (hc ▸ ⟨rfl, rfl⟩) (hc ▸ rfl)
  | referencing f =>
    simp only [turn, hc] at hs
    cases hs
    exact .raise f hc
  | returning f =>
    simp only [turn, hc] at hs
    obtain ⟨m, hm, rfl⟩ := map_eq_some_iff.1 hs
    exact .return f m hc hm
  | missing n =>
    simp only [turn, hc] at hs
    obtain ⟨m, hm, rfl⟩ := map_eq_some_iff.1 hs
    exact .unlock _ m (hc ▸ ⟨rfl, rfl⟩) (hc ▸ rfl) hm
  | creating n =>
    simp only [turn, hc, some.injEq] at hs
    split at hs
    · subst hs
      exact .create n hc
    · subst hs
      exact .move _ (hc ▸ ⟨rfl, rfl⟩) (hc ▸ rfl)
  | reading f =>
    simp only [turn, hc, some.injEq] at hs
    split at hs
    · subst hs
      exact .move _ (hc ▸ ⟨rfl, rfl⟩) (hc ▸ rfl)
    · subst hs
      exact .fail f hc
  | adding f =>
    simp only [turn, hc] at hs
    obtain ⟨m, hm, rfl⟩ := map_eq_some_iff.1 hs
    exact .lock _ m (hc ▸ rfl) (hc ▸ id) (hc ▸ rfl) hm
  | inserting f =>
    simp only [turn, hc] at hs
    split at hs
    · next cur hcursor =>
        cases hs
        exact .insert f cur hc hcursor
    · cases hs
      exact .late f hc
  | freeing f retry =>
    simp only [turn, hc] at hs
    split at hs
    · next hadded =>
        cases hs
        exact .unhook f retry hc hadded
    · cases hs
      exact .move _ (hc ▸ ⟨rfl, rfl⟩) (hc ▸ rfl)
  | unhooking f retry =>
    simp only [turn, hc] at hs
    obtain ⟨m, hm, rfl⟩ := map_eq_some_iff.1 hs
    exact .lock _ m (hc ▸ rfl) (hc ▸ id) (hc ▸ rfl) hm
  | removing f retry =>
    simp only [turn, hc] at hs
    obtain ⟨m, hm, rfl⟩ := map_eq_some_iff.1 hs
    exact .remove f retry m hc hm
  | releasing f retry =>
    simp only [turn, hc] at hs
    cases hs
    exact .free f retry hc

/-! ## The mutex -/

/-- The mutex is held as often as the calls say. -/
def MutexOk (s : InodeCache T) : Prop := ∀ t, s.inodeTreeMutex.depth t = holds (s.thread t)

section

variable (h : s.MutexOk)
include h

theorem MutexOk.change {call : Call} (hmt : ∀ u ≠ t,
      s'.inodeTreeMutex.depth u = s.inodeTreeMutex.depth u)
    (hp : s'.inodeTreeMutex.depth t = holds call)
    (hh : s'.thread = update s.thread t call) : s'.MutexOk := by
  intro u
  rw [hh]
  by_cases hu : u = t
  · subst hu
    rw [update_self, hp]
  · rw [update_of_ne hu, hmt u hu, h u]

theorem MutexOk.same {call : Call} (hmt : s'.inodeTreeMutex = s.inodeTreeMutex)
    (hholds : holds call = holds (s.thread t))
    (hh : s'.thread = update s.thread t call) : s'.MutexOk :=
  h.change (fun u _ => by rw [hmt]) (by rw [hmt, h t, hholds]) hh

theorem MutexOk.lock {call : Call} {m : Mutex T}
    (hm : s.inodeTreeMutex.acquire t = some m) (hmt : s'.inodeTreeMutex = m)
    (hholds : holds call = holds (s.thread t) + 1)
    (hh : s'.thread = update s.thread t call) : s'.MutexOk := by
  have hp := Mutex.depth_acquire hm
  refine h.change (fun u hu => ?_) ?_ hh
  · rw [hmt, hp u, if_neg hu, Nat.add_zero]
  · rw [hmt, hp t, if_pos rfl, h t, hholds]

theorem MutexOk.unlock {call : Call} {m : Mutex T}
    (hm : s.inodeTreeMutex.release t = some m) (hmt : s'.inodeTreeMutex = m)
    (hholds : holds (s.thread t) = holds call + 1)
    (hh : s'.thread = update s.thread t call) : s'.MutexOk := by
  have hp := Mutex.depth_release hm
  refine h.change (fun u hu => ?_) ?_ hh
  · have hu' := hp u
    rw [if_neg hu, Nat.add_zero] at hu'
    rw [hmt, hu']
  · have ht := hp t
    rw [if_pos rfl, h t, hholds] at ht
    rw [hmt]
    omega

theorem MutexOk.turn (htr : Turn s t s')
    (hld : ∀ f, s.thread t = .reading f → s.referenceCount f = 1) : s'.MutexOk := by
  cases htr with
  | move call hmv hholds => exact h.same rfl hholds rfl
  | lock call m _ _ hholds hm => exact h.lock hm rfl hholds rfl
  | unlock call m _ hholds hm => exact h.unlock hm rfl hholds rfl
  | find n f hc _ => exact h.same rfl (hc ▸ rfl) rfl
  | raise f hc => exact h.same rfl (hc ▸ rfl) rfl
  | «return» f m hc hm => exact h.unlock hm rfl (hc ▸ rfl) rfl
  | create n hc => exact h.same rfl (hc ▸ rfl) rfl
  | fail f hc =>
    refine h.same rfl ?_ rfl
    rw [hc, hld f hc]
    rfl
  | insert f cur hc _ => exact h.same rfl (hc ▸ rfl) rfl
  | late f hc => exact h.same rfl (hc ▸ rfl) rfl
  | unhook f retry hc _ => exact h.same rfl (hc ▸ rfl) rfl
  | remove f retry m hc hm => exact h.unlock hm rfl (hc ▸ rfl) rfl
  | free f retry hc =>
    refine h.same rfl ?_ rfl
    rw [hc]
    cases retry <;> rfl

/-- Two threads do not hold the mutex at a time. -/
theorem MutexOk.eq {u : T} (ht : holds (s.thread t) ≠ 0)
    (hu : holds (s.thread u) ≠ 0) : u = t := by
  rw [← h] at ht hu
  exact some.inj ((Mutex.owner_eq_some hu).symm.trans (Mutex.owner_eq_some ht))

end

/-! ## The life of an FCB -/

/-- What has become of an FCB, with what the threads do with it. -/
inductive Life (s : InodeCache T) (g : Fcb) : Prop
  | absent (hfcb : g ∉ s.fcbs) (htree : g ∉ s.inodeTree) (hgiven : s.given g = 0)
      (hfreed : s.freed g = 0) (hrole : ∀ u, role (s.thread u) g = none)
  | loaded (t : T) (hfcb : g ∈ s.fcbs) (htree : g ∉ s.inodeTree) (hgiven : s.given g = 0)
      (hfreed : s.freed g = 0) (hcount : s.referenceCount g = 1)
      (hrole : role (s.thread t) g = some .loads) (hother : ∀ u ≠ t, role (s.thread u) g = none)
  | cached (hfcb : g ∈ s.fcbs) (htree : g ∈ s.inodeTree) (hfreed : s.freed g = 0)
      (hpos : s.referenceCount g ≠ 0)
      (hrole : ∀ u, role (s.thread u) g ≠ some .loads ∧ role (s.thread u) g ≠ some .frees)
      (hcount : (∀ u, role (s.thread u) g ≠ some .returns) → s.referenceCount g = s.given g)
      (hreturn : ∀ u, role (s.thread u) g = some .returns → s.referenceCount g = s.given g + 1)
  | dropped (t : T) (hfcb : g ∈ s.fcbs) (htree : g ∉ s.inodeTree) (hgiven : s.given g = 0)
      (hfreed : s.freed g = 0) (hrole : role (s.thread t) g = some .frees)
      (hother : ∀ u ≠ t, role (s.thread u) g = none)
  | freed (hfcb : g ∈ s.fcbs) (htree : g ∉ s.inodeTree) (hgiven : s.given g = 0)
      (hfreed : s.freed g = 1) (hrole : ∀ u, role (s.thread u) g = none)

/-- A step has nothing to do with the FCB. -/
structure Apart (s s' : InodeCache T) (g : Fcb) : Prop where
  fcb : g ∈ s'.fcbs ↔ g ∈ s.fcbs
  tree : g ∈ s'.inodeTree ↔ g ∈ s.inodeTree
  count : s'.referenceCount g = s.referenceCount g
  given : s'.given g = s.given g
  freed : s'.freed g = s.freed g
  role : ∀ u, role (s'.thread u) g = role (s.thread u) g

omit [DecidableEq T] in
theorem Life.apart {g : Fcb} (h : Life s g) (ha : Apart s s' g) : Life s' g := by
  cases h with
  | absent hfcb htree hgiven hfreed hrole =>
    exact .absent (mt ha.fcb.1 hfcb) (mt ha.tree.1 htree) (ha.given.trans hgiven)
      (ha.freed.trans hfreed) fun u => (ha.role u).trans (hrole u)
  | loaded t hfcb htree hgiven hfreed hcount hrole hother =>
    exact .loaded t (ha.fcb.2 hfcb) (mt ha.tree.1 htree) (ha.given.trans hgiven)
      (ha.freed.trans hfreed) (ha.count.trans hcount) ((ha.role t).trans hrole)
      fun u hu => (ha.role u).trans (hother u hu)
  | cached hfcb htree hfreed hpos hrole hcount hreturn =>
    refine .cached (ha.fcb.2 hfcb) (ha.tree.2 htree) (ha.freed.trans hfreed) ?_ ?_ ?_ ?_
    · rw [ha.count]
      exact hpos
    · intro u
      rw [ha.role u]
      exact hrole u
    · intro hnn
      rw [ha.count, ha.given]
      exact hcount fun u => ha.role u ▸ hnn u
    · intro u hu
      rw [ha.count, ha.given]
      exact hreturn u (ha.role u ▸ hu)
  | dropped t hfcb htree hgiven hfreed hrole hother =>
    exact .dropped t (ha.fcb.2 hfcb) (mt ha.tree.1 htree) (ha.given.trans hgiven)
      (ha.freed.trans hfreed) ((ha.role t).trans hrole)
      fun u hu => (ha.role u).trans (hother u hu)
  | freed hfcb htree hgiven hfreed hrole =>
    exact .freed (ha.fcb.2 hfcb) (mt ha.tree.1 htree) (ha.given.trans hgiven)
      (ha.freed.trans hfreed) fun u => (ha.role u).trans (hrole u)

theorem role_update (thr : T → Call) (call : Call) (g : Fcb) (u : T) :
    role (update thr t call u) g = if u = t then role call g else role (thr u) g := by
  by_cases hu : u = t
  · rw [hu, update_self, if_pos rfl]
  · rw [update_of_ne hu, if_neg hu]

theorem role_update_same {thr : T → Call} {call : Call} {g : Fcb}
    (h : role call g = role (thr t) g) (u : T) :
    role (update thr t call u) g = role (thr u) g := by
  rw [role_update]
  split
  · next hu => rw [hu, h]
  · rfl

/-- Between two states of which only the one thread's call and the data of `f` differ. -/
theorem apart_of_update {call : Call} {f g : Fcb} (hg : g ≠ f)
    (hrole : role call g = role (s.thread t) g)
    (hh : s'.thread = update s.thread t call) (hfcb : g ∈ s'.fcbs ↔ g ∈ s.fcbs)
    (htree : g ∈ s'.inodeTree ↔ g ∈ s.inodeTree)
    (hcount : ∀ g ≠ f, s'.referenceCount g = s.referenceCount g)
    (hgiven : ∀ g ≠ f, s'.given g = s.given g) (hfreed : ∀ g ≠ f, s'.freed g = s.freed g) :
    Apart s s' g where
  fcb := hfcb
  tree := htree
  count := hcount g hg
  given := hgiven g hg
  freed := hfreed g hg
  role := fun u => by
    rw [hh]
    exact role_update_same hrole u

theorem Life.goto {g : Fcb} (h : Life s g) {call : Call} (hrole : role call g = role (s.thread t) g)
    (m : Mutex T) : Life { s.goto t call with inodeTreeMutex := m } g :=
  h.apart ⟨Iff.rfl, Iff.rfl, rfl, rfl, rfl, role_update_same hrole⟩

/-- An FCB of the tree when a thread has gone on, from the roles of that thread and the others. -/
theorem Life.cached_update {call : Call} {g : Fcb}
    (hh : s'.thread = update s.thread t call) (hfcb : g ∈ s'.fcbs)
    (htree : g ∈ s'.inodeTree) (hfreed : s'.freed g = 0) (hpos : s'.referenceCount g ≠ 0)
    (hc : role call g ≠ some .loads ∧ role call g ≠ some .frees)
    (hrl : ∀ u ≠ t, role (s.thread u) g ≠ some .loads ∧ role (s.thread u) g ≠ some .frees)
    (hcount : role call g ≠ some .returns → (∀ u ≠ t, role (s.thread u) g ≠ some .returns) →
      s'.referenceCount g = s'.given g)
    (hsl : role call g = some .returns → s'.referenceCount g = s'.given g + 1)
    (hreturn : ∀ u ≠ t, role (s.thread u) g = some .returns →
      s'.referenceCount g = s'.given g + 1) : Life s' g := by
  have ht : role (s'.thread t) g = role call g := by
    rw [hh, role_update, if_pos rfl]
  have hne (u : T) (hu : u ≠ t) : role (s'.thread u) g = role (s.thread u) g := by
    rw [hh, role_update, if_neg hu]
  refine .cached hfcb htree hfreed hpos (fun u => ?_) (fun ha => ?_) fun u hu => ?_
  · by_cases hu : u = t
    · rw [hu, ht]
      exact hc
    · rw [hne u hu]
      exact hrl u hu
  · exact hcount (ht ▸ ha t) fun u hu => hne u hu ▸ ha u
  · by_cases hut : u = t
    · exact hsl (ht ▸ hut ▸ hu)
    · exact hreturn u hut (hne u hut ▸ hu)

end InodeCache

end Boron.Ext2
