import Mathlib.Data.List.Pairwise
import Mathlib.Data.List.TakeWhile
import Mathlib.Order.Lattice

/-! # Search trees read in order

A balanced search tree is seen here through its in-order sequence of entries, a `List α` with a key
function. A `Cursor` is a tree with one entry in hand: entries can be edited in place, and neighbours
can be inserted or removed while it is held. The lookups and loops of an intrusive red-black tree
(`insert` that refuses a present key, approximate lookup, forward and backward walks) are defined on
this view. -/

namespace Boron

open List Option

variable {α β κ : Type*}

/-- A tree with one of its entries in hand; `left` holds the entries before it, nearest first. -/
structure Cursor (α : Type*) where
  left : List α
  entry : α
  right : List α

namespace Cursor

/-- All entries, in order. -/
def toTree (c : Cursor α) : List α := c.left.reverse ++ c.entry :: c.right

/-- The tree without the entry in hand. -/
def remove (c : Cursor α) : List α := c.left.reverse ++ c.right

/-- The entry before the one in hand. -/
def prev (c : Cursor α) : Option (Cursor α) :=
  match c.left with
  | [] => none
  | e :: l => some ⟨l, e, c.entry :: c.right⟩

theorem prev_toTree {c d : Cursor α} (h : c.prev = some d) : d.toTree = c.toTree := by
  obtain ⟨l, e, r⟩ := c
  cases l with
  | nil => simp [prev] at h
  | cons e' l =>
    obtain rfl : _ = d := some.inj h
    simp [toTree]

theorem toTree_perm (c : Cursor α) : c.toTree.Perm (c.entry :: c.remove) := by
  simp only [toTree, remove]
  exact perm_middle

end Cursor

/-! ## Walks -/

/-- `for (Entry = First; Entry; Entry = Next) Body`: the first result of the body, `l` being the
    entries already passed. -/
def forUp (f : Cursor α → Option β) : List α → List α → Option β
  | _, [] => none
  | l, e :: r =>
    match f ⟨l, e, r⟩ with
    | some b => some b
    | none => forUp f (e :: l) r

/-- `for (Entry = Last; Entry; Entry = Prev) Body`, the first list being the reversed tree. -/
def forDown (f : Cursor α → Option β) : List α → List α → Option β
  | [], _ => none
  | e :: l, r =>
    match f ⟨l, e, r⟩ with
    | some b => some b
    | none => forDown f l (e :: r)

variable {l r : List α}

variable {f : Cursor α → Option β} {b : β}

theorem forUp_eq_some
    (h : forUp f l r = some b) : ∃ c : Cursor α, c.toTree = l.reverse ++ r ∧ f c = some b := by
  induction r generalizing l with
  | nil => simp [forUp] at h
  | cons e r ih =>
    simp only [forUp] at h
    split at h
    · next b' hb =>
        cases h
        exact ⟨⟨l, e, r⟩, rfl, hb⟩
    · obtain ⟨c, hc, hf⟩ := ih h
      exact ⟨c, by simpa using hc, hf⟩

theorem forDown_eq_some
    (h : forDown f l r = some b) : ∃ c : Cursor α, c.toTree = l.reverse ++ r ∧ f c = some b := by
  induction l generalizing r with
  | nil => simp [forDown] at h
  | cons e l ih =>
    simp only [forDown] at h
    split at h
    · next b' hb =>
        cases h
        exact ⟨⟨l, e, r⟩, by simp [Cursor.toTree], hb⟩
    · obtain ⟨c, hc, hf⟩ := ih h
      exact ⟨c, by simpa using hc, hf⟩

/-! ## Keyed operations -/

variable [LinearOrder κ] (key : α → κ)

/-- Insert `x`; `none` if its key is present. The cursor returned holds `x`. -/
def insertItem (t : List α) (x : α) : Option (Cursor α) :=
  let l := t.takeWhile (fun e => decide (key e < key x))
  let r := t.dropWhile (fun e => decide (key e < key x))
  if r.head?.any (fun e => decide (key e = key x)) then none else some ⟨l.reverse, x, r⟩

/-- The entry with the greatest key at or below `k`. -/
def lookUpApproximate (t : List α) (k : κ) : Option (Cursor α) :=
  match (t.takeWhile (fun e => decide (key e ≤ k))).reverse with
  | [] => none
  | e :: l => some ⟨l, e, t.dropWhile (fun e => decide (key e ≤ k))⟩

/-- Insert `x` while another entry is held; `none` if its key is present. -/
def Cursor.insertItem (c : Cursor α) (x : α) : Option (Cursor α) :=
  if key x < key c.entry then
    (Boron.insertItem key c.left.reverse x).map fun d => { c with left := d.toTree.reverse }
  else if key c.entry < key x then
    (Boron.insertItem key c.right x).map fun d => { c with right := d.toTree }
  else none

/-- Keys increase strictly along the tree. -/
def Ordered (t : List α) : Prop := t.Pairwise fun a b => key a < key b

variable {key}

variable {x : α}

theorem insertItem_between (hl : ∀ e ∈ l, key e < key x) (hr : ∀ e ∈ r, key x < key e) :
    Boron.insertItem key (l ++ r) x = some ⟨l.reverse, x, r⟩ := by
  have htk : (l ++ r).takeWhile (fun e => decide (key e < key x)) = l := by
    rw [takeWhile_append_of_pos (by simpa using hl)]
    cases r with
    | nil => simp
    | cons e r => simp [(hr e (by simp)).le]
  have hdrop : (l ++ r).dropWhile (fun e => decide (key e < key x)) = r := by
    rw [dropWhile_append_of_pos (by simpa using hl)]
    cases r with
    | nil => simp
    | cons e r => simp [(hr e (by simp)).le]
  have hh : r.head?.any (fun e => decide (key e = key x)) = false := by
    cases r with
    | nil => rfl
    | cons e r => simpa using (hr e (by simp)).ne'
  simp only [Boron.insertItem, htk, hdrop, hh, Bool.false_eq_true, if_false]

variable {t : List α} {c : Cursor α}

/-- What an insertion that succeeds did. -/
theorem insertItem_eq_some (h : Boron.insertItem key t x = some c) (ht : Ordered key t) :
    ∃ l r, t = l ++ r ∧ c = ⟨l.reverse, x, r⟩ ∧ (∀ e ∈ l, key e < key x) ∧ ∀ e ∈ r, key x < key e := by
  simp only [Boron.insertItem] at h
  split at h
  · simp at h
  · next hh =>
      cases h
      refine ⟨_, _, (takeWhile_append_dropWhile).symm, rfl, ?_, ?_⟩
      · intro e he
        simpa using mem_takeWhile_imp he
      · have hb : Ordered key (t.dropWhile fun e => decide (key e < key x)) :=
          List.Pairwise.sublist (dropWhile_sublist _) ht
        cases hr : t.dropWhile fun e => decide (key e < key x) with
        | nil => simp
        | cons e r =>
          rw [hr] at hb hh
          have hne : key e ≠ key x := by simpa using hh
          have hnl : ¬ key e < key x := by
            have := List.head?_dropWhile_not (fun e => decide (key e < key x)) t
            rw [hr] at this
            simpa using this
          have hlt : key x < key e := lt_of_le_of_ne (not_lt.1 hnl) hne.symm
          intro e' he'
          rcases mem_cons.1 he' with rfl | he'
          · exact hlt
          · exact hlt.trans ((pairwise_cons.1 hb).1 e' he')

/-- An insertion fails only on a present key. -/
theorem insertItem_eq_none (h : Boron.insertItem key t x = none) : ∃ e ∈ t, key e = key x := by
  simp only [Boron.insertItem] at h
  split at h
  · next hh =>
      cases hr : t.dropWhile fun e => decide (key e < key x) with
      | nil => simp [hr] at hh
      | cons e r =>
        rw [hr] at hh
        refine ⟨e, (dropWhile_sublist _).subset (hr ▸ mem_cons_self), ?_⟩
        simpa using hh
  · simp at h

theorem toTree_of_insertItem (h : Boron.insertItem key t x = some c) : c.entry = x ∧ c.remove = t := by
  simp only [Boron.insertItem] at h
  split at h
  · simp at h
  · rw [← some.inj h]
    simp [Cursor.remove]

/-- Keys still increase after an insertion. -/
theorem Ordered.insertItem (ht : Ordered key t)
    (h : Boron.insertItem key t x = some c) : Ordered key c.toTree := by
  obtain ⟨l, r, rfl, rfl, hl, hr⟩ := insertItem_eq_some h ht
  have hp := pairwise_append.1 ht
  simp only [Ordered, Cursor.toTree, reverse_reverse]
  refine pairwise_append.2 ⟨hp.1, pairwise_cons.2 ⟨hr, hp.2.1⟩, ?_⟩
  intro a ha b hb
  rcases mem_cons.1 hb with rfl | hb
  · exact hl a ha
  · exact hp.2.2 a ha b hb

theorem Ordered.eq_of_key (ht : Ordered key t) {a b : α} (ha : a ∈ t) (hb : b ∈ t)
    (h : key a = key b) : a = b := by
  by_contra hne
  have hdf : t.Pairwise fun a b => key a ≠ key b := ht.imp ne_of_lt
  have : Std.Symm fun a b : α => key a ≠ key b := ⟨fun _ _ => Ne.symm⟩
  exact hdf.forall ha hb hne h

variable (key) in
/-- An insertion, done or refused, leaves the entry in hand and adds at most its item around it. -/
theorem Cursor.insertItem_getD (c : Cursor α) (x : α) : ((c.insertItem key x).getD c).entry = c.entry ∧
      ∀ a ∈ ((c.insertItem key x).getD c).remove, a = x ∨ a ∈ c.remove := by
  have hin : ∀ {t : List α} {d : Cursor α} {a : α}, Boron.insertItem key t x = some d →
      a ∈ d.toTree → a = x ∨ a ∈ t := by
    intro t d a hd ha
    obtain ⟨he, ht⟩ := toTree_of_insertItem hd
    have hme := d.toTree_perm.mem_iff.1 ha
    rw [he, ht] at hme
    exact mem_cons.1 hme
  simp only [Cursor.insertItem]
  split
  · cases hd : Boron.insertItem key c.left.reverse x with
    | none => exact ⟨rfl, fun a ha => .inr ha⟩
    | some d =>
      refine ⟨rfl, fun a ha => ?_⟩
      simp only [map_some, getD_some, Cursor.remove, reverse_reverse, mem_append] at ha ⊢
      rcases ha with ha | ha
      · exact (hin hd ha).imp_right .inl
      · exact .inr (.inr ha)
  split
  · cases hd : Boron.insertItem key c.right x with
    | none => exact ⟨rfl, fun a ha => .inr ha⟩
    | some d =>
      refine ⟨rfl, fun a ha => ?_⟩
      simp only [map_some, getD_some, Cursor.remove, mem_append] at ha ⊢
      rcases ha with ha | ha
      · exact .inr (.inl ha)
      · exact (hin hd ha).imp_right .inr
  · exact ⟨rfl, fun a ha => .inr ha⟩

variable {k : κ}

theorem lookUpApproximate_eq_some (h : lookUpApproximate key t k = some c) :
    c.toTree = t ∧ key c.entry ≤ k := by
  simp only [lookUpApproximate] at h
  split at h
  · simp at h
  · next e l hrv =>
      cases h
      have htk : t.takeWhile (fun e => decide (key e ≤ k)) = l.reverse ++ [e] := by
        rw [← reverse_reverse (t.takeWhile _), hrv]
        simp
      constructor
      · calc Cursor.toTree ⟨l, e, t.dropWhile fun e => decide (key e ≤ k)⟩
            = (l.reverse ++ [e]) ++ t.dropWhile (fun e => decide (key e ≤ k)) := by
              simp [Cursor.toTree]
          _ = t := by rw [← htk, takeWhile_append_dropWhile]
      · have he : e ∈ t.takeWhile fun e => decide (key e ≤ k) := by rw [htk]; simp
        simpa using mem_takeWhile_imp he

variable {e : α}

/-- The approximate lookup finds the entry between the keys up to `k` and those past it. -/
theorem lookUpApproximate_between (hl : ∀ a ∈ l, key a ≤ k) (he : key e ≤ k) (hr : ∀ a ∈ r, k < key a) :
    lookUpApproximate key (l ++ e :: r) k = some ⟨l.reverse, e, r⟩ := by
  have hp : l ++ e :: r = (l ++ [e]) ++ r := by simp
  have hle : ∀ a ∈ l ++ [e], decide (key a ≤ k) = true := by
    intro a ha
    rcases mem_append.1 ha with ha | ha
    · exact decide_eq_true (hl a ha)
    · rw [mem_singleton.1 ha]
      exact decide_eq_true he
  have htk : (l ++ e :: r).takeWhile (fun a => decide (key a ≤ k)) = l ++ [e] := by
    rw [hp, takeWhile_append_of_pos hle]
    cases r with
    | nil => simp
    | cons a r => simp [hr a (by simp)]
  have hdrop : (l ++ e :: r).dropWhile (fun a => decide (key a ≤ k)) = r := by
    have hal := takeWhile_append_dropWhile (p := fun a => decide (key a ≤ k)) (l := l ++ e :: r)
    rw [htk] at hal
    exact append_cancel_left (hal.trans hp)
  simp only [lookUpApproximate, htk, hdrop, reverse_append, reverse_singleton, singleton_append]

/-- Insertion to the left of the entry in hand. -/
theorem Cursor.insertItem_left (hl : ∀ a ∈ l, key a < key x) (hx : key x < key e) :
    Cursor.insertItem key ⟨l, e, r⟩ x = some ⟨x :: l, e, r⟩ := by
  have h : Boron.insertItem key (l.reverse ++ []) x = some ⟨l.reverse.reverse, x, []⟩ :=
    insertItem_between (by simpa using hl) (by simp)
  rw [append_nil] at h
  simp [Cursor.insertItem, hx, h, Cursor.toTree]

/-- Insertion to the right of the entry in hand. -/
theorem Cursor.insertItem_right (hx : key e < key x) (hr : ∀ a ∈ r, key x < key a) :
    Cursor.insertItem key ⟨l, e, r⟩ x = some ⟨l, e, x :: r⟩ := by
  have h : Boron.insertItem key ([] ++ r) x = some ⟨[].reverse, x, r⟩ :=
    insertItem_between (by simp) hr
  rw [nil_append] at h
  simp [Cursor.insertItem, hx, not_lt.2 hx.le, h, Cursor.toTree]

end Boron
