import Mathlib.Data.List.Nodup

/-! # Intrusive doubly linked lists

The links of an intrusive list live in two maps `next` and `prev` shared by every list of the
system; a list itself is only its two ends. `IsDList next prev nil first last l` says that the nodes
of `l`, in this order, are exactly the list with these ends: chained in both directions, without
repetition, `nil` before the first and after the last.

The two update rules (`IsDList.append_singleton`, `IsDList.unlink`) take the new links pointwise, on
the nodes of the list only, so that whatever an operation does to other nodes stays out of sight. -/

namespace Boron

open List

variable {α : Type*}

/-- The nodes of `l` are chained in both directions, with `p` before the first and `n` after the
    last. -/
def Seg (next prev : α → α) : α → List α → α → Prop
  | _, [], _ => True
  | p, a :: l, n => prev a = p ∧ next a = l.headD n ∧ Seg next prev a l n

variable {next prev next' prev' : α → α} {p p' n n' nil first last : α} {l xs ys : List α} {a : α}

theorem seg_append : Seg next prev p (xs ++ ys) n
      ↔ Seg next prev p xs (ys.headD n) ∧ Seg next prev (xs.getLastD p) ys n := by
  induction xs generalizing p with
  | nil => simp [Seg]
  | cons b xs ih =>
    have hh : (xs ++ ys).headD n = xs.headD (ys.headD n) := by cases xs <;> simp
    have hls : (b :: xs).getLastD p = xs.getLastD b := getLastD_cons ..
    simp only [cons_append, Seg, ih, hh, hls]
    tauto

/-- Change the links around a segment: only its first node looks back out of it, only its last node
    looks forward out of it. -/
theorem Seg.retarget [DecidableEq α] (h : Seg next prev p l n) (hnd : l.Nodup)
    (hp : ∀ b ∈ l, prev' b = if l.head? = some b then p' else prev b)
    (hnext : ∀ b ∈ l, next' b = if l.getLast? = some b then n' else next b) :
    Seg next' prev' p' l n' := by
  induction l generalizing p p' with
  | nil => trivial
  | cons b l ih =>
    obtain ⟨-, hb, htl⟩ := h
    obtain ⟨hbl, hnd⟩ := nodup_cons.1 hnd
    refine ⟨by simpa using hp b (by simp), ?_, ih htl hnd ?_ ?_⟩
    · have hnb := hnext b (by simp)
      cases l with
      | nil => simpa using hnb
      | cons c l =>
        have hne : (b :: c :: l).getLast? ≠ some b := by
          rw [List.getLast?_cons_cons]
          intro hb'
          exact hbl (mem_of_getLast? hb')
        rw [if_neg hne] at hnb
        simpa [hnb] using hb
    · intro c hc
      have hcb : b ≠ c := fun he => hbl (he ▸ hc)
      have hpc := hp c (mem_cons_of_mem _ hc)
      rw [List.head?_cons, if_neg (fun he => hcb (Option.some.inj he))] at hpc
      split
      · next hh =>
          obtain ⟨l', rfl⟩ := List.head?_eq_some_iff.1 hh
          rw [hpc, htl.1]
      · exact hpc
    · intro c hc
      have hnc := hnext c (mem_cons_of_mem _ hc)
      have hls : (b :: l).getLast? = l.getLast? := by
        cases l with
        | nil => simp at hc
        | cons d l => rw [List.getLast?_cons_cons]
      rwa [hls] at hnc

/-- Links outside the segment do not matter. -/
theorem Seg.congr (h : Seg next prev p l n)
    (hl : ∀ b ∈ l, next' b = next b ∧ prev' b = prev b) : Seg next' prev' p l n := by
  induction l generalizing p with
  | nil => trivial
  | cons b l ih =>
    obtain ⟨hp, hn, htl⟩ := h
    obtain ⟨hb, hpb⟩ := hl b (by simp)
    exact ⟨hpb.trans hp, hb.trans hn, ih htl fun c hc => hl c (mem_cons_of_mem _ hc)⟩

theorem Seg.next_getLast (h : Seg next prev p l n) (ha : l.getLast? = some a) : next a = n := by
  obtain ⟨l', rfl⟩ := List.getLast?_eq_some_iff.1 ha
  exact (seg_append.1 h).2.2.1

/-- Append a node to a segment: the old last node now points to it. -/
theorem Seg.append_singleton [DecidableEq α] (h : Seg next prev p l n) (hnd : l.Nodup)
    (hnext : ∀ b ∈ l, next' b = if l.getLast? = some b then a else next b)
    (hp : ∀ b ∈ l, prev' b = prev b) (ha : next' a = n' ∧ prev' a = l.getLastD p) :
    Seg next' prev' p (l ++ [a]) n' := by
  refine seg_append.2 ⟨h.retarget hnd ?_ hnext, ha.2, ha.1, trivial⟩
  intro b hb
  rw [hp b hb]
  split
  · next hh =>
      obtain ⟨l', rfl⟩ := List.head?_eq_some_iff.1 hh
      exact h.1
  · rfl

/-- A segment that ends in `nil` is determined by its first node. -/
theorem Seg.unique (h : Seg next prev p xs nil) (h' : Seg next prev p' ys nil)
    (hx : nil ∉ xs) (hy : nil ∉ ys) (hh : xs.headD nil = ys.headD nil) : xs = ys := by
  induction xs generalizing p p' ys with
  | nil =>
    cases ys with
    | nil => rfl
    | cons b ys => exact absurd (by simpa using .inl hh) hy
  | cons a xs ih =>
    cases ys with
    | nil => exact absurd (by simpa using .inl hh.symm) hx
    | cons b ys =>
      obtain rfl : a = b := hh
      simp only [mem_cons, not_or] at hx hy
      rw [ih h.2.2 h'.2.2 hx.2 hy.2 (h.2.1.symm.trans h'.2.1)]

/-- The list with ends `first` and `last` consists of the nodes `l`, in this order. -/
structure IsDList (next prev : α → α) (nil first last : α) (l : List α) : Prop where
  first_eq : first = l.headD nil
  last_eq : last = l.getLastD nil
  nodup : l.Nodup
  nil_not_mem : nil ∉ l
  seg : Seg next prev nil l nil

namespace IsDList

theorem empty : IsDList next prev nil nil nil [] :=
  ⟨rfl, rfl, nodup_nil, not_mem_nil, trivial⟩

theorem congr (h : IsDList next prev nil first last l)
    (hl : ∀ b ∈ l, next' b = next b ∧ prev' b = prev b) :
    IsDList next' prev' nil first last l :=
  ⟨h.first_eq, h.last_eq, h.nodup, h.nil_not_mem, h.seg.congr hl⟩

theorem ne_nil (h : IsDList next prev nil first last l) {b : α} (hb : b ∈ l) : b ≠ nil :=
  fun he => h.nil_not_mem (he ▸ hb)

/-- The ends and the links determine the nodes. -/
theorem unique (h : IsDList next prev nil first last xs)
    (h' : IsDList next prev nil first last ys) : xs = ys :=
  h.seg.unique h'.seg h.nil_not_mem h'.nil_not_mem (h.first_eq.symm.trans h'.first_eq)

theorem first_eq_nil_iff (h : IsDList next prev nil first last l) : first = nil ↔ l = [] := by
  rw [h.first_eq]
  cases l with
  | nil => simp
  | cons b l =>
    have hb : b ≠ nil := h.ne_nil (by simp)
    simpa using hb

theorem exists_cons (h : IsDList next prev nil first last l) (hne : first ≠ nil) :
    ∃ l', l = first :: l' := by
  cases l with
  | nil => exact absurd h.first_eq hne
  | cons b l' =>
    have : first = b := h.first_eq
    exact ⟨l', by rw [this]⟩

/-- The links of a node in the middle of the list. -/
theorem links (h : IsDList next prev nil first last (xs ++ a :: ys)) :
    prev a = xs.getLastD nil ∧ next a = ys.headD nil :=
  have hsg := (seg_append.1 h.seg).2
  ⟨hsg.1, hsg.2.1⟩

/-- A node is the first one exactly if nothing is before it. -/
theorem first_eq_iff (h : IsDList next prev nil first last l) (ha : a ∈ l) :
    first = a ↔ prev a = nil := by
  obtain ⟨xs, ys, rfl⟩ := append_of_mem ha
  rw [h.first_eq, h.links.1]
  rcases eq_nil_or_concat xs with rfl | ⟨xs', x, rfl⟩
  · simp
  · have hx : x ≠ nil := h.ne_nil (by simp)
    have hxa : (xs'.concat x ++ a :: ys).headD nil ≠ a := by
      intro he
      have hnd := (nodup_cons.1 (nodup_middle.1 h.nodup)).1
      cases xs' with
      | nil => simp_all
      | cons y xs' => simp_all
    simpa [getLastD_eq_getLast?, hx] using hxa

/-- A node is the last one exactly if nothing is after it. -/
theorem last_eq_iff (h : IsDList next prev nil first last l) (ha : a ∈ l) :
    last = a ↔ next a = nil := by
  obtain ⟨xs, ys, rfl⟩ := append_of_mem ha
  rw [h.last_eq, h.links.2]
  cases ys with
  | nil => simp [getLastD_eq_getLast?]
  | cons y ys =>
    have hy : y ≠ nil := h.ne_nil (by simp)
    have hme : (xs ++ a :: y :: ys).getLastD nil ∈ y :: ys := by
      have hls : (xs ++ a :: y :: ys).getLastD nil = (y :: ys).getLast (by simp) := by
        rw [getLastD_eq_getLast?, List.getLast?_append_of_ne_nil _ (by simp),
          List.getLast?_cons_cons, List.getLast?_eq_some_getLast (by simp)]
        rfl
      rw [hls]
      exact getLast_mem _
    have hnd := (nodup_cons.1 (nodup_middle.1 h.nodup)).1
    have hne : (xs ++ a :: y :: ys).getLastD nil ≠ a := by
      intro he
      rw [he] at hme
      exact hnd (mem_append_right _ hme)
    simpa [hy] using hne

theorem ends_mem (h : IsDList next prev nil first last l) :
    (first = nil ∨ first ∈ l) ∧ (last = nil ∨ last ∈ l) := by
  rw [h.first_eq, h.last_eq]
  constructor
  · cases l <;> simp
  · rw [getLastD_eq_getLast?]
    rcases hl : l.getLast? with _ | c
    · exact .inl rfl
    · exact .inr (mem_of_getLast? hl)

theorem links_mem (h : IsDList next prev nil first last l) (ha : a ∈ l) :
    (next a = nil ∨ next a ∈ l) ∧ (prev a = nil ∨ prev a ∈ l) := by
  obtain ⟨xs, ys, rfl⟩ := append_of_mem ha
  rw [h.links.1, h.links.2]
  constructor
  · cases ys <;> simp
  · rw [getLastD_eq_getLast?]
    rcases hl : xs.getLast? with _ | c
    · exact .inl rfl
    · exact .inr (mem_append_left _ (mem_of_getLast? hl))

/-- Append a node: `a` was in no position of the list, the old last node now points to it. -/
theorem append_singleton [DecidableEq α] (h : IsDList next prev nil first last l) (hal : a ∉ l) (hnil : a ≠ nil)
    (hnext : ∀ b ∈ l, next' b = if b = last then a else next b)
    (hp : ∀ b ∈ l, prev' b = prev b)
    (ha : next' a = nil ∧ prev' a = last) :
    IsDList next' prev' nil (if first = nil then a else first) a (l ++ [a]) := by
  have hme : ∀ b ∈ l, (l.getLast? = some b ↔ b = last) := by
    intro b hb
    rw [h.last_eq, getLastD_eq_getLast?]
    rcases hl : l.getLast? with _ | c
    · rw [List.getLast?_eq_none_iff] at hl
      simp [hl] at hb
    · simp [eq_comm]
  refine ⟨?_, by simp [getLastD_eq_getLast?], ?_, ?_, ?_⟩
  · have hc := h.first_eq_nil_iff
    cases l with
    | nil => simp [h.first_eq]
    | cons b l =>
      have hb : first ≠ nil := fun he => by simpa using hc.1 he
      rw [if_neg hb]
      simpa using h.first_eq
  · exact h.nodup.append (nodup_singleton a) (disjoint_singleton.2 hal)
  · simp only [mem_append, mem_singleton, not_or]
    exact ⟨h.nil_not_mem, fun he => hnil he.symm⟩
  · refine h.seg.append_singleton h.nodup ?_ hp ⟨ha.1, ha.2.trans h.last_eq⟩
    intro b hb
    simp only [hnext b hb, hme b hb]

/-- Take a node out: its two neighbours now point to each other, and an end that was this node
    moves to its neighbour. -/
theorem unlink [DecidableEq α] (h : IsDList next prev nil first last (xs ++ a :: ys))
    (hnext : ∀ b ∈ xs ++ ys, next' b = if b = prev a then next a else next b)
    (hp : ∀ b ∈ xs ++ ys, prev' b = if b = next a then prev a else prev b) :
    IsDList next' prev' nil (if first = a then next a else first)
      (if last = a then prev a else last) (xs ++ ys) := by
  obtain ⟨hpa, hna⟩ := h.links
  have hnd : (xs ++ ys).Nodup := (nodup_middle.1 h.nodup).of_cons
  have ha : a ∉ xs ++ ys := (nodup_cons.1 (nodup_middle.1 h.nodup)).1
  have hnil : nil ∉ xs ++ ys := by
    have := h.nil_not_mem
    simp only [mem_append, mem_cons, not_or] at this ⊢
    exact ⟨this.1, this.2.2⟩
  obtain ⟨hx, hny, hds⟩ := nodup_append.1 hnd
  obtain ⟨hsg, -, -, hy⟩ := seg_append.1 h.seg
  refine ⟨?_, ?_, hnd, hnil, seg_append.2 ⟨?_, ?_⟩⟩
  · rw [h.first_eq]
    cases xs with
    | nil => simpa using hna
    | cons b xs =>
      have hba : b ≠ a := fun he => ha (by simp [he])
      simp [hba]
  · rw [h.last_eq]
    rcases eq_nil_or_concat ys with rfl | ⟨ys', y, rfl⟩
    · simpa [getLastD_eq_getLast?] using hpa
    · have hya : y ≠ a := fun he => ha (by simp [he])
      have hls : ∀ zs : List α, (zs ++ ys'.concat y).getLastD nil = y := by
        simp [getLastD_eq_getLast?, ← append_assoc]
      rw [hls, ← singleton_append, ← append_assoc, hls, if_neg hya]
  · -- the left part: its last node now looks at the first node of the right part
    refine hsg.retarget hx ?_ ?_
    · intro b hb
      have hbn : b ≠ next a := by
        rw [hna]
        cases ys with
        | nil => exact fun he => hnil (by simp_all)
        | cons y ys => exact fun he => hds b hb y (by simp) (by simpa using he)
      rw [hp b (mem_append_left _ hb), if_neg hbn]
      split
      · next hh =>
          obtain ⟨l', rfl⟩ := List.head?_eq_some_iff.1 hh
          exact hsg.1
      · rfl
    · intro b hb
      have hif : b = prev a ↔ xs.getLast? = some b := by
        rw [hpa, getLastD_eq_getLast?]
        rcases hl : xs.getLast? with _ | c
        · rw [List.getLast?_eq_none_iff] at hl
          simp [hl] at hb
        · simp [eq_comm]
      rw [hnext b (mem_append_left _ hb), hna]
      simp only [hif]
  · -- the right part: its first node now looks back at the last node of the left part
    refine hy.retarget hny ?_ ?_
    · intro b hb
      have hif : b = next a ↔ ys.head? = some b := by
        rw [hna]
        cases ys with
        | nil => simp at hb
        | cons y ys => simp [eq_comm]
      rw [hp b (mem_append_right _ hb), hpa]
      simp only [hif]
    · intro b hb
      have hbp : b ≠ prev a := by
        rw [hpa, getLastD_eq_getLast?]
        rcases hl : xs.getLast? with _ | c
        · exact fun he => hnil (by simp_all)
        · exact fun he => hds c (mem_of_getLast? hl) b hb (by simpa using he.symm)
      rw [hnext b (mem_append_right _ hb), if_neg hbp]
      split
      · next hls =>
          obtain ⟨ys', rfl⟩ := List.getLast?_eq_some_iff.1 hls
          simpa using (seg_append.1 hy).2.2.1
      · rfl

end IsDList

end Boron
