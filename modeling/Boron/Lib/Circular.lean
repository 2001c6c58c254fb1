import Boron.Lib.DList

/-! # Circular intrusive lists

A circular list hangs on a head that is a node itself: the links of the head are the two ends of the
list, and an empty list is a head that points to itself. `Ring L h l` says that the list of head `h`
has the nodes `l`, in this order.

The operations write the links one by one, whatever the nodes are linked to at the time. The rules
say what they do on a well-formed list, and that a list of other nodes stays as it is. -/

namespace Boron

open Function List

/-- `LIST_ENTRY`s: the two links of every node. -/
structure Links (α : Type*) where
  next : α → α
  prev : α → α

namespace Links

variable {α : Type*} [DecidableEq α] {L : Links α} {h g e : α} {l m : List α}

/-- `InitializeListHead`. -/
def initHead (L : Links α) (h : α) : Links α :=
  ⟨update L.next h h, update L.prev h h⟩

/-- `InsertHeadList`. -/
def insertHead (L : Links α) (h e : α) : Links α :=
  let L : Links α := ⟨update L.next e (L.next h), update L.prev e h⟩
  ⟨update L.next h e, update L.prev (L.next h) e⟩

/-- `InsertTailList`. -/
def insertTail (L : Links α) (h e : α) : Links α :=
  let L : Links α := ⟨update L.next e h, update L.prev e (L.prev h)⟩
  ⟨update L.next (L.prev h) e, update L.prev h e⟩

/-- `RemoveEntryList`. The links of the node stay. -/
def remove (L : Links α) (e : α) : Links α :=
  ⟨update L.next (L.prev e) (L.next e), update L.prev (L.next e) (L.prev e)⟩

/-- `RemoveHeadList`; the node it returns is the one after the head before. -/
def removeHead (L : Links α) (h : α) : Links α :=
  let L : Links α := ⟨update L.next h (L.next (L.next h)), L.prev⟩
  ⟨L.next, update L.prev (L.next h) h⟩

/-- `IsListEmpty`. -/
def isEmpty (L : Links α) (h : α) : Bool := L.next h = h

omit [DecidableEq α] in
/-- The list of head `h` consists of the nodes `l`. -/
def Ring (L : Links α) (h : α) (l : List α) : Prop :=
  IsDList L.next L.prev h (L.next h) (L.prev h) l

theorem ring_initHead (L : Links α) (h : α) : (L.initHead h).Ring h [] := by
  simp only [Ring, initHead, update_self]
  exact IsDList.empty

theorem next_insertHead {b : α} (hb : b ≠ h) (hbe : b ≠ e) : (L.insertHead h e).next b = L.next b := by
  simp only [insertHead, update_of_ne hb, update_of_ne hbe]

namespace Ring

theorem isEmpty_iff (hr : L.Ring h l) : L.isEmpty h = true ↔ l = [] := by
  rw [isEmpty, decide_eq_true_eq]
  exact hr.first_eq_nil_iff

section

omit [DecidableEq α]

theorem unique (hr : L.Ring h l) (hr' : L.Ring h m) : l = m := IsDList.unique hr hr'

theorem head_not_mem (hr : L.Ring h l) : h ∉ l := hr.nil_not_mem

theorem nodup (hr : L.Ring h l) : l.Nodup := IsDList.nodup hr

theorem next_head (hr : L.Ring h (e :: l)) : L.next h = e := hr.first_eq

/-- A node of a list does not point to itself. -/
theorem next_ne_self (hr : L.Ring h l) (he : e ∈ l) : L.next e ≠ e := by
  obtain ⟨xs, ys, rfl⟩ := append_of_mem he
  rw [IsDList.links hr |>.2]
  have hnd := (nodup_cons.1 (nodup_middle.1 hr.nodup)).1
  cases ys with
  | nil => exact fun heq => hr.head_not_mem (heq ▸ he)
  | cons y ys =>
    intro heq
    have hy : y = e := heq
    exact hnd (by simp [hy])

/-- Links of other nodes do not matter. -/
theorem congr {L' : Links α} (hr : L.Ring h l)
    (hL : ∀ b ∈ h :: l, L'.next b = L.next b ∧ L'.prev b = L.prev b) : L'.Ring h l := by
  obtain ⟨hn, hp⟩ := hL h (by simp)
  rw [Ring, hn, hp]
  exact IsDList.congr hr fun b hb => hL b (by simp [hb])

/-- The links of the head and of the nodes stay in the list. -/
theorem links_mem (hr : L.Ring h l) {b : α} (hb : b ∈ h :: l) :
    L.next b ∈ h :: l ∧ L.prev b ∈ h :: l := by
  rcases mem_cons.1 hb with rfl | hb
  · obtain ⟨hf, hl⟩ := IsDList.ends_mem hr
    exact ⟨mem_cons.2 hf, mem_cons.2 hl⟩
  · obtain ⟨hn, hp⟩ := IsDList.links_mem hr hb
    exact ⟨mem_cons.2 hn, mem_cons.2 hp⟩

end

/-! ## Inserting -/

theorem insertTail (hr : L.Ring h l) (he : e ∉ h :: l) : (L.insertTail h e).Ring h (l ++ [e]) := by
  obtain ⟨heh, hel⟩ : e ≠ h ∧ e ∉ l := by simpa using he
  have hls : L.prev h ≠ e := fun heq => he (heq ▸ (hr.links_mem (by simp)).2)
  have hen : (L.insertTail h e).next h = (if L.next h = h then e else L.next h) ∧
      (L.insertTail h e).prev h = e := by
    simp only [Links.insertTail, update_self, update_of_ne heh.symm, and_true]
    have hbt : h = L.prev h ↔ L.next h = h := by
      rw [hr.first_eq_nil_iff]
      constructor
      · intro heq
        cases l with
        | nil => rfl
        | cons b l =>
          have hl := hr.last_eq
          rw [← heq, getLastD_eq_getLast?] at hl
          obtain ⟨c, hc⟩ := Option.isSome_iff_exists.1 (List.getLast?_isSome.2 (cons_ne_nil b l))
          rw [hc, Option.getD_some] at hl
          exact absurd (mem_of_getLast? hc) (hl ▸ hr.head_not_mem)
      · rintro rfl
        exact hr.last_eq.symm
    by_cases heq : L.next h = h
    · rw [if_pos heq, ← hbt.2 heq, update_self]
    · rw [if_neg heq, update_of_ne fun hh => heq (hbt.1 hh), update_of_ne heh.symm]
  rw [Ring, hen.1, hen.2]
  refine IsDList.append_singleton hr hel heh (fun b hb => ?_) (fun b hb => ?_) ⟨?_, ?_⟩
  · have hbe : b ≠ e := fun heq => hel (heq ▸ hb)
    simp only [Links.insertTail, update_of_ne heh.symm, update_apply, hbe, if_false]
  · have hbe : b ≠ e := fun heq => hel (heq ▸ hb)
    have hbh : b ≠ h := fun heq => hr.head_not_mem (heq ▸ hb)
    simp only [Links.insertTail, update_of_ne hbh, update_of_ne hbe]
  · simp only [Links.insertTail, update_of_ne heh.symm, update_of_ne hls.symm, update_self]
  · simp only [Links.insertTail, update_of_ne heh, update_self]

theorem insertHead (hr : L.Ring h l) (he : e ∉ h :: l) : (L.insertHead h e).Ring h (e :: l) := by
  obtain ⟨heh, hel⟩ : e ≠ h ∧ e ∉ l := by simpa using he
  have hfs : L.next h ≠ e := fun heq => he (heq ▸ (hr.links_mem (by simp)).1)
  have hnext : ∀ b, b ≠ e → b ≠ h → (L.insertHead h e).next b = L.next b := by
    intro b hbe hbh
    simp only [Links.insertHead, update_of_ne hbh, update_of_ne hbe]
  have hp : ∀ b, b ≠ e → (L.insertHead h e).prev b = if b = L.next h then e else L.prev b := by
    intro b hbe
    simp only [Links.insertHead, update_of_ne heh.symm, update_apply, hbe, if_false]
  refine ⟨?_, ?_, nodup_cons.2 ⟨hel, hr.nodup⟩, ?_, ?_, ?_, ?_⟩
  · simp [Links.insertHead]
  · rw [hp h heh.symm]
    cases l with
    | nil =>
      have hh : L.next h = h := hr.first_eq
      simp [hh]
    | cons b l =>
      have hb : L.next h = b := hr.next_head
      have hbh : h ≠ b := fun heq => hr.head_not_mem (by simp [heq])
      rw [hb, if_neg hbh, hr.last_eq, getLastD_cons, getLastD_cons, getLastD_cons]
  · simp only [mem_cons, not_or]
    exact ⟨heh.symm, hr.head_not_mem⟩
  · simp only [Links.insertHead, update_of_ne heh.symm, update_of_ne hfs.symm, update_self]
  · simp only [Links.insertHead, update_of_ne heh, update_self]
    exact hr.first_eq
  · refine hr.seg.retarget hr.nodup (fun b hb => ?_) fun b hb => ?_
    · have hbe : b ≠ e := fun heq => hel (heq ▸ hb)
      have hif : b = L.next h ↔ l.head? = some b := by
        rw [hr.first_eq]
        cases l with
        | nil => simp at hb
        | cons c l => simp [eq_comm]
      rw [hp b hbe]
      simp only [hif]
    · have hbe : b ≠ e := fun heq => hel (heq ▸ hb)
      have hbh : b ≠ h := fun heq => hr.head_not_mem (heq ▸ hb)
      rw [hnext b hbe hbh]
      split
      · next hls => exact hr.seg.next_getLast hls
      · rfl

/-! ## Removing -/

theorem remove (hr : L.Ring h l) (he : e ∈ l) : (L.remove e).Ring h (l.erase e) := by
  obtain ⟨xs, ys, rfl⟩ := append_of_mem he
  have hex : e ∉ xs := fun hx => (nodup_cons.1 (nodup_middle.1 hr.nodup)).1 (mem_append_left _ hx)
  have hls : (L.remove e).prev h = if L.prev h = e then L.prev e else L.prev h := by
    simp only [Links.remove, update_apply]
    exact if_congr (eq_comm.trans (IsDList.last_eq_iff hr he).symm) rfl rfl
  have hfs : (L.remove e).next h = if L.next h = e then L.next e else L.next h := by
    simp only [Links.remove, update_apply]
    exact if_congr (eq_comm.trans (IsDList.first_eq_iff hr he).symm) rfl rfl
  rw [Ring, hfs, hls, erase_append_right _ hex, erase_cons_head]
  refine IsDList.unlink hr (fun b _ => ?_) fun b _ => ?_
  · simp only [Links.remove, update_apply]
  · simp only [Links.remove, update_apply]

/-- The head of a list goes like any other node. -/
theorem removeHead_eq (hr : L.Ring h (e :: l)) : L.removeHead h = L.remove e := by
  have hp : L.prev e = h := (IsDList.first_eq_iff hr (by simp)).1 hr.next_head
  simp only [Links.removeHead, Links.remove, hr.next_head, hp, update_self]

/-! ## Turning a list -/

omit [DecidableEq α] in
/-- Any node of a circular list may be taken for its head. -/
theorem rotate {xs ys : List α} (hr : L.Ring h (xs ++ e :: ys)) : L.Ring e (ys ++ h :: xs) := by
  obtain ⟨hx, hpr, hnext, hy⟩ := seg_append.1 hr.seg
  have hfs : L.next h = xs.headD e := by
    rw [hr.first_eq]
    cases xs <;> rfl
  have hls : L.prev h = ys.getLastD e := by
    rw [hr.last_eq]
    simp [getLastD_eq_getLast?, List.getLast?_append, List.getLast?_cons]
  have hnd : (h :: (xs ++ e :: ys)).Nodup := nodup_cons.2 ⟨hr.head_not_mem, hr.nodup⟩
  have hp : (h :: (xs ++ e :: ys)).Perm (e :: (ys ++ h :: xs)) := by
    have ha : (h :: xs ++ e :: ys).Perm (e :: ys ++ h :: xs) := perm_append_comm
    exact ha
  obtain ⟨hme, hnd⟩ := nodup_cons.1 (hp.nodup_iff.1 hnd)
  refine ⟨?_, ?_, hnd, hme, seg_append.2 ⟨hy, hls, hfs, hx⟩⟩
  · rw [hnext]
    cases ys <;> rfl
  · rw [hpr]
    simp [getLastD_eq_getLast?, List.getLast?_append, List.getLast?_cons]

theorem insertAfter {xs ys : List α} {a : α} (hr : L.Ring h (xs ++ a :: ys))
    (he : e ∉ h :: (xs ++ a :: ys)) : (L.insertHead a e).Ring h (xs ++ a :: e :: ys) := by
  have he' : e ∉ a :: (ys ++ h :: xs) := by
    simp only [mem_cons, mem_append, not_or] at he ⊢
    exact ⟨he.2.2.1, he.2.2.2, he.1, he.2.1⟩
  have hin : (L.insertHead a e).Ring a ((e :: ys) ++ h :: xs) := hr.rotate.insertHead he'
  exact hin.rotate

omit [DecidableEq α] in
/-- The node after a node. -/
theorem next_eq {xs ys : List α} (hr : L.Ring h (xs ++ e :: ys)) : L.next e = ys.headD h :=
  (IsDList.links hr).2

omit [DecidableEq α] in
/-- The node before a node. -/
theorem prev_eq {xs ys : List α} (hr : L.Ring h (xs ++ e :: ys)) : L.prev e = xs.getLastD h :=
  (IsDList.links hr).1

/-! ## Links that an operation leaves alone -/

theorem next_insertTail (hr : L.Ring h l) (he : e ≠ h) {b : α} (hb : b ∉ h :: l) (hbe : b ≠ e) :
    (L.insertTail h e).next b = L.next b := by
  have hne : b ≠ L.prev h := fun heq => hb (heq ▸ (hr.links_mem (by simp)).2)
  simp only [Links.insertTail, update_of_ne he.symm, update_of_ne hne, update_of_ne hbe]

theorem next_remove (hr : L.Ring h l) (he : e ∈ l) {b : α} (hb : b ∉ h :: l) :
    (L.remove e).next b = L.next b := by
  have hne : b ≠ L.prev e := fun heq => hb (heq ▸ (hr.links_mem (mem_cons_of_mem h he)).2)
  simp only [Links.remove, update_of_ne hne]

/-! ## Other lists -/

variable (hr : L.Ring h l) (hg : L.Ring g m) (hdis : ∀ b ∈ g :: m, b ∉ h :: l)
include hr hg hdis

theorem insertTail_frame (he : e ∉ g :: m) : (L.insertTail h e).Ring g m := by
  refine hg.congr fun b hb => ?_
  have hbe : b ≠ e := fun heq => he (heq ▸ hb)
  have hbh : b ≠ h := fun heq => hdis b hb (by simp [heq])
  have hnd : ∀ c ∈ h :: l, b ≠ c := fun c hc heq => hdis b hb (heq ▸ hc)
  constructor
  · simp only [Links.insertTail]
    rw [update_of_ne, update_of_ne hbe]
    by_cases hh : h = e
    · rw [← hh, update_self]
      exact hnd _ (hr.links_mem (by simp)).2
    · rw [update_of_ne hh]
      exact hnd _ (hr.links_mem (by simp)).2
  · simp only [Links.insertTail, update_of_ne hbh, update_of_ne hbe]

theorem insertHead_frame (he : e ∉ g :: m) : (L.insertHead h e).Ring g m := by
  refine hg.congr fun b hb => ?_
  have hbe : b ≠ e := fun heq => he (heq ▸ hb)
  have hbh : b ≠ h := fun heq => hdis b hb (by simp [heq])
  have hnd : ∀ c ∈ h :: l, b ≠ c := fun c hc heq => hdis b hb (heq ▸ hc)
  constructor
  · simp only [Links.insertHead, update_of_ne hbh, update_of_ne hbe]
  · simp only [Links.insertHead]
    rw [update_of_ne, update_of_ne hbe]
    by_cases hh : h = e
    · rw [← hh, update_self]
      exact hnd _ (hr.links_mem (by simp)).1
    · rw [update_of_ne hh]
      exact hnd _ (hr.links_mem (by simp)).1

theorem remove_frame (he : e ∈ l) : (L.remove e).Ring g m := by
  have hme := hr.links_mem (mem_cons_of_mem h he)
  refine hg.congr fun b hb => ?_
  have hbn : b ≠ L.next e := fun heq => hdis b hb (heq ▸ hme.1)
  have hp : b ≠ L.prev e := fun heq => hdis b hb (heq ▸ hme.2)
  simp only [Links.remove, update_of_ne hbn, update_of_ne hp, and_self]

end Ring

end Links

end Boron
